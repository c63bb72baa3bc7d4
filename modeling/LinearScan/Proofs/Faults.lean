import LinearScan.Scan.Basic
import LinearScan.Proofs.Moves

/-!
# What a step leaves alone, and what can stop it

Each step of the scan can stop only for causes of its own.  Moving intervals between registers
has one set of causes, carrying out what is recorded at a tree adds three, and the start of a
block adds one more.  A comparison is found circular only at the places that are listed here:
where an interval is taken off the active list, and where what a tree asks for is looked for
among its restores.

A store shows the registers it took its value from behind its own operands.  A store that has no
operands never gets that far, since it names no variable: whether a scan returns or stops, in
the end nothing is noted at such a store.

Both are read off one walk through the steps of a scan.
-/

namespace LinearScan

/-! ## Causes -/

section Causes

variable {α β : Type} {P : Fault → Prop}

/-- A result is missing only for a cause for which `P` holds. -/
def MissingFor (P : Fault → Prop) (x : Except Fault α) : Prop :=
  ∀ fault, x = .error fault → P fault

theorem missingFor_ok (a : α) : MissingFor P (.ok a : Except Fault α) := by
  intro fault h
  cases h

theorem missingFor_error {cause : Fault} (h : P cause) :
    MissingFor P (.error cause : Except Fault α) := by
  intro fault heq
  cases heq
  exact h

theorem MissingFor.bind
    {x : Except Fault α} {f : α → Except Fault β}
    (hx : MissingFor P x) (hf : ∀ a, MissingFor P (f a)) :
    MissingFor P (x >>= f) := by
  intro fault h
  cases x with
  | error cause =>
      cases h
      exact hx fault rfl
  | ok a => exact hf a fault h

end Causes

namespace Fault

/-- The causes for which nothing stands at a position. -/
def OfPosition : Fault → Prop
  | .outOfRange | .tooWide | .notAPosition _ => True
  | _ => False

/-- The causes for which records of registers can be found wanting, where no interval has to
make room for another. -/
def OfRecord : Fault → Prop
  | .outOfRange | .tooWide | .notAPosition _ | .noNextUse | .inactiveSpill | .notListed
  | .circular => True
  | _ => False

/-- The causes for which a recorded spill cannot be carried out. -/
def OfSpill : Fault → Prop
  | .recordedSpillInactive | .recordedSpillElsewhere => True
  | fault => fault.OfRecord

/-- The causes for which moving intervals between registers can stop. -/
def OfMove : Fault → Prop
  | .outOfRange | .tooWide | .notAPosition _ | .noNextUse | .uselessActivation
  | .inactiveSpill | .noVictim _ _ _ | .notListed | .circular => True
  | _ => False

/-- The causes for which the scan of a tree can stop. -/
def OfTree : Fault → Prop
  | .recordedSpillInactive | .recordedSpillElsewhere | .recordedRestoreActive => True
  | fault => fault.OfMove

/-- The causes for which a block cannot be started. -/
def OfEntry : Fault → Prop
  | .noExitSet => True
  | fault => fault.OfPosition

/-- The causes for which the survey of the local variables can stop. -/
def OfSurvey : Fault → Prop
  | .noParent => True
  | fault => fault.OfPosition

/-- The causes for which bringing the edges to agreement can stop. -/
def OfEdges : Fault → Prop
  | .noEntrySet | .edgeExpected | .noTerminator => True
  | _ => False

theorem OfPosition.ofRecord {fault : Fault} (h : fault.OfPosition) : fault.OfRecord := by
  cases fault <;> first | exact h | trivial

theorem OfRecord.ofSpill {fault : Fault} (h : fault.OfRecord) : fault.OfSpill := by
  cases fault <;> first | exact h | trivial

theorem OfRecord.ofMove {fault : Fault} (h : fault.OfRecord) : fault.OfMove := by
  cases fault <;> first | exact h | trivial

theorem OfPosition.ofEntry {fault : Fault} (h : fault.OfPosition) : fault.OfEntry := by
  cases fault <;> first | exact h | trivial

theorem OfPosition.ofSurvey {fault : Fault} (h : fault.OfPosition) : fault.OfSurvey := by
  cases fault <;> first | exact h | trivial

theorem OfEntry.ofMove_or {fault : Fault} (h : fault.OfEntry) :
    fault.OfMove ∨ fault = .noExitSet := by
  cases fault <;> first | exact Or.inr rfl | exact Or.inl trivial | exact h.elim

theorem OfPosition.ofMove {fault : Fault} (h : fault.OfPosition) : fault.OfMove :=
  h.ofRecord.ofMove

theorem OfSpill.ofTree {fault : Fault} (h : fault.OfSpill) : fault.OfTree := by
  cases fault <;> first | exact h | trivial

theorem OfMove.ofTree {fault : Fault} (h : fault.OfMove) : fault.OfTree := by
  cases fault <;> first | exact h | trivial

/-- The causes other than a circular comparison and the want of an interval to spill. -/
def Plain : Fault → Prop
  | .circular | .noVictim _ _ _ => False
  | _ => True

/-- `P` holds of the plain causes in `C`. -/
def Admits (P C : Fault → Prop) : Prop :=
  ∀ fault, C fault → fault.Plain → P fault

variable {P C : Fault → Prop}

theorem admits_self : Admits C C :=
  fun _ h _ => h

theorem Admits.mono {C' : Fault → Prop} (h : Admits P C) (hsub : ∀ fault, C' fault → C fault) :
    Admits P C' :=
  fun fault hfault => h fault (hsub fault hfault)

theorem Admits.ofPosition (h : Admits P OfRecord) : Admits P OfPosition :=
  h.mono fun _ => OfPosition.ofRecord

theorem Admits.ofRecord (h : Admits P OfMove) : Admits P OfRecord :=
  h.mono fun _ => OfRecord.ofMove

end Fault

/-! ## Results -/

open Fault

section Results

variable {P : Fault → Prop}

/-- What is missing because nothing stands at a position. -/
theorem Fault.Admits.missing {α : Type} {x : Except Fault α} (hP : Admits P OfPosition)
    (hx : MissingFor OfPosition x) : MissingFor P x := by
  intro fault h
  have hfault := hx fault h
  refine hP fault hfault ?_
  cases fault <;> first | exact hfault | trivial

theorem missingFor_resolve (size : Nat) (i : Int) :
    MissingFor OfPosition (Position.resolve size i) := by
  simp only [Position.resolve]
  generalize (if i < 0 then i + (size : Int) else i) = k
  split
  · exact missingFor_ok _
  · split
    · exact missingFor_error trivial
    · exact missingFor_error trivial

theorem missingFor_resolve? (size : Nat) (reg : Option Int) :
    MissingFor OfPosition (Position.resolve? size reg) := by
  cases reg with
  | none => exact missingFor_error trivial
  | some i => exact missingFor_resolve size i

theorem missingFor_position (o : Operand) : MissingFor OfPosition o.position := by
  rcases o with (_ | _) | _ | _ <;> first | exact missingFor_ok _ | exact missingFor_error trivial

theorem missingFor_slotOf (s : Allocator) (t : Tree) : MissingFor OfPosition (s.slotOf t) := by
  simp only [Allocator.slotOf]
  split
  · exact missingFor_error trivial
  · next o _ _ =>
      refine (missingFor_position o).bind fun i => (missingFor_resolve _ i).bind fun k => ?_
      split
      · exact missingFor_ok _
      · exact missingFor_error trivial

theorem missingFor_alike (g : Graph) (n : Notes) (a b : Entity) :
    MissingFor OfRecord (alike g n a b) := by
  simp only [alike]
  split
  · exact missingFor_ok _
  · exact missingFor_ok _
  · exact missingFor_error trivial

theorem missingFor_removeAlike (g : Graph) (n : Notes) (i : IntervalId) (is : List IntervalId) :
    MissingFor OfRecord (removeAlike g n i is) := by
  induction is with
  | nil => exact missingFor_error trivial
  | cons j is ih =>
      refine (missingFor_alike _ _ _ _).bind fun same => ?_
      split
      · exact missingFor_ok _
      · exact ih.bind fun rest => missingFor_ok _

theorem missingFor_restoresAlike (g : Graph) (n : Notes) (i : IntervalId) (rs : List Restore) :
    MissingFor OfRecord (restoresAlike g n i rs) := by
  induction rs with
  | nil => exact missingFor_ok _
  | cons r rs ih =>
      refine (missingFor_alike _ _ _ _).bind fun same => ?_
      split
      · exact missingFor_ok _
      · exact ih

theorem missingFor_choose (hP : Admits P OfRecord) (s : Allocator) (pos : Nat) (i : IntervalId) :
    MissingFor P (s.choose pos i) := by
  simp only [Allocator.choose]
  split
  · exact missingFor_ok _
  · exact missingFor_ok _
  · split
    · exact missingFor_ok _
    · exact missingFor_error (hP _ trivial trivial)

theorem Allocator.choose_eq_none_iff {s : Allocator} {pos : Nat} {i : IntervalId} :
    s.choose pos i = .ok none ↔ s.freeRegisters = [] := by
  rw [Allocator.choose]
  cases hfree : s.freeRegisters with
  | nil => simp
  | cons number others =>
      cases others with
      | nil => simp
      | cons other others =>
          cases s.notes.nextUse i pos with
          | none => simp
          | some use => simp

end Results

namespace Allocator

/-- The interval `i` is in no register, no register is empty, and every active interval is used
again, and no later than `i`. -/
def NoRoom (s : Allocator) (pos : Nat) (i : IntervalId) : Prop :=
  (s.interval i).liveIn = none ∧ s.freeRegisters = [] ∧
    ∃ use, s.notes.nextUse i pos = some use ∧
      ∀ j ∈ s.active, ∃ z, s.notes.nextUse j pos = some z ∧ s.notes.index z ≤ s.notes.index use

theorem victim_eq_none_iff {s : Allocator} {pos limit : Nat} {best : Option (IntervalId × Nat)}
    {is : List IntervalId} :
    s.victim pos limit best is = none ↔
      best = none ∧ ∀ i ∈ is, ∃ z, s.notes.nextUse i pos = some z ∧ s.notes.index z ≤ limit := by
  induction is generalizing best with
  | nil => simp [victim]
  | cons i is ih =>
      rw [victim]
      cases huse : s.notes.nextUse i pos with
      | none => simp [huse]
      | some z =>
          by_cases hle : s.notes.index z ≤ limit
          · simp [huse, hle, ih]
          · cases best with
            | none => simp [huse, hle, ih]
            | some candidate =>
                by_cases hlt : candidate.2 < s.notes.index z <;> simp [hle, hlt, ih]

end Allocator

/-! ## Where intervals are taken off -/

/-- The scan of a tree that has begun. -/
structure Visit where
  tree : Tree
  /-- The state in which the scan begins. -/
  before : Allocator

/-- The intervals for which the tree asks a register, with the states in which it does.  The
request that cannot be met, if there is one, comes last. -/
def Visit.requests (g : Graph) (v : Visit) : List (Allocator × IntervalId) :=
  Alloc.requests g v.tree v.before

namespace Alloc

/-- The visits of a scan of trees in order. -/
def visitTrees (g : Graph) : List Tree → Allocator → List Visit
  | [], _ => []
  | t :: ts, s =>
      ⟨t, s⟩ ::
        match scanTree g t s with
        | .ok _ s' => visitTrees g ts s'
        | .error _ _ => []

/-- The visits of a scan of blocks in order. -/
def visitBlocks (g : Graph) : List BlockId → Allocator → List Visit
  | [], _ => []
  | b :: bs, s =>
      match enter b s with
      | .ok _ s₁ =>
          visitTrees g (g.treesOf b) s₁ ++
            match scanBlock g b s with
            | .ok _ s' => visitBlocks g bs s'
            | .error _ _ => []
      | .error _ _ => []

/-- Where the spill of `i` at the tree `t` takes it off the active list. -/
def spillRemovals (t : Tree) (i : IntervalId) (s : Allocator) : List (Allocator × IntervalId) :=
  match (s.interval i).liveIn with
  | none => []
  | some reg =>
      if (s.interval i).owner.isTemp then
        match s.notes.nextUse i (s.notes.index t) with
        | none => []
        | some use => [({ s with notes := spillNotes s.notes t i reg (some use) }, i)]
      else
        [({ s with notes := spillNotes s.notes t i reg none }, i)]

/-- Where an interval makes room for the one that the tree `t` asks for. -/
def evictRemovals (t : Tree) (x : Allocator × IntervalId) : List (Allocator × IntervalId) :=
  if (x.1.interval x.2).liveIn = none ∧ x.1.freeRegisters = [] then
    match x.1.notes.nextUse x.2 (x.1.notes.index t) with
    | none => []
    | some use =>
        match x.1.victim (x.1.notes.index t) (x.1.notes.index use) none x.1.active with
        | none => []
        | some v => spillRemovals t v x.1
  else
    []

/-- Where the recorded spills are carried out. -/
def carryRemovals (g : Graph) : List Spill → Allocator → List (Allocator × IntervalId)
  | [], _ => []
  | spill :: rest, s =>
      (s, spill.interval) ::
        match carrySpill g spill s with
        | .ok _ s' => carryRemovals g rest s'
        | .error _ _ => []

/-- Where the register of the stored value is cleared for the variable. -/
def storeRemovals (t : Tree) (s : Allocator) : List (Allocator × IntervalId) :=
  match t.kind, s.slotOf t, t.subtrees with
  | .stLocal, .ok i, value :: _ =>
      if (s.interval i).liveIn = some (s.notes.reg value) then
        []
      else
        match Position.resolve s.registers.length (s.notes.reg value) with
        | .error _ => []
        | .ok k =>
            match (s.registers[k]?).join with
            | none => []
            | some j => if (s.interval j).owner.isTemp then [(s, j)] else spillRemovals t j s
  | _, _, _ => []

end Alloc

open Alloc in
/-- The intervals that the visit takes off the active list, with the states in which it does. -/
def Visit.removals (g : Graph) (v : Visit) : List (Allocator × IntervalId) :=
  let s := { v.before with tree := some v.tree }
  (match release v.tree { s with reuse := false } with
    | .ok _ s₁ => carryRemovals g (s₁.notes.tree v.tree).spills s₁
    | .error _ _ => []) ++
  (v.requests g).flatMap (evictRemovals v.tree) ++
  match prepare g v.tree s with
  | .ok _ s₁ => storeRemovals v.tree s₁
  | .error _ _ => []

/-! ## Confined steps -/

namespace Allocator

/-- Nothing was noted as stored at the trees with numbers in `D`. -/
def Untouched (D : TreeId → Prop) (s : Allocator) : Prop :=
  ∀ id, D id → (s.notes.trees.get id).stored = []

end Allocator

namespace Alloc

variable {α β : Type} {D : TreeId → Prop} {P : Fault → Prop} {g : Graph} {t : Tree}
  {i : IntervalId} {s s' : Allocator} {x : Alloc α} {f : α → Alloc β}

/-- From the state `s` the step stops only for a cause for which `P` holds.  Whether it returns
or stops, it notes nothing as stored at the trees with numbers in `D`. -/
def Confined (D : TreeId → Prop) (P : Fault → Prop) (x : Alloc α) (s : Allocator) : Prop :=
  s.Untouched D → match x s with
    | .ok _ s' => s'.Untouched D
    | .error fault s' => P fault ∧ s'.Untouched D

theorem Confined.cause {fault : Fault} (h : Confined (fun _ => False) P x s)
    (hstop : x s = .error fault s') : P fault := by
  have hend := h nofun
  rw [hstop] at hend
  exact hend.1

theorem Confined.untouched (h : Confined D P x s) (hs : s.Untouched D)
    (hend : (∃ a, x s = .ok a s') ∨ ∃ fault, x s = .error fault s') : s'.Untouched D := by
  have hafter := h hs
  rcases hend with ⟨a, hend⟩ | ⟨fault, hend⟩
  · rw [hend] at hafter
    exact hafter
  · rw [hend] at hafter
    exact hafter.2

theorem confined_pure (a : α) : Confined D P (pure a) s :=
  fun hs => hs

theorem confined_throw {fault : Fault} (h : P fault) : Confined D P (throw fault : Alloc α) s :=
  fun hs => ⟨h, hs⟩

theorem confined_ofExcept {x : Except Fault α} (h : MissingFor P x) :
    Confined D P (ofExcept x) s := by
  cases x with
  | ok a => exact confined_pure a
  | error fault => exact confined_throw (h fault rfl)

theorem confined_modify {f : Allocator → Allocator} (h : (f s).notes.trees = s.notes.trees) :
    Confined D P (modify f) s := by
  intro hs id hid
  rw [h]
  exact hs id hid

theorem confined_modifyTree {f : TreeNote → TreeNote}
    (hf : ∀ note, (f note).stored = note.stored) :
    Confined D P (modifyNotes fun n => n.modifyTree t f) s := by
  intro hs id hid
  change ((s.notes.trees.modify t.id f).get id).stored = []
  rw [Table.get_modify]
  split
  · rw [hf]
    exact hs id hid
  · exact hs id hid

theorem Confined.bind (hx : Confined D P x s)
    (hf : ∀ a s₁, x s = .ok a s₁ → Confined D P (f a) s₁) : Confined D P (x >>= f) s := by
  intro hs
  have hfirst := hx hs
  cases hout : x s with
  | ok a s₁ =>
      rw [hout] at hfirst
      rw [bind_apply_of_ok hout]
      exact hf a s₁ hout hfirst
  | error fault s₁ =>
      rw [hout] at hfirst
      have hstop : (x >>= f) s = .error fault s₁ := bind_apply_eq_error_iff.mpr (Or.inl hout)
      rw [hstop]
      exact hfirst

theorem Confined.andThen {a : α} {s₁ : Allocator} (hx : Confined D P x s) (h : x s = .ok a s₁)
    (hf : Confined D P (f a) s₁) : Confined D P (x >>= f) s := by
  refine hx.bind fun b s₂ h' => ?_
  rw [h] at h'
  cases h'
  exact hf

theorem confined_get {f : Allocator → Alloc β} (h : Confined D P (f s) s) :
    Confined D P (get >>= f) s :=
  h

theorem confined_interval {f : Interval → Alloc β} (h : Confined D P (f (s.interval i)) s) :
    Confined D P (interval i >>= f) s :=
  h

theorem confined_throw_bind {fault : Fault} (h : P fault) :
    Confined D P (throw fault >>= f) s :=
  (confined_throw h).bind nofun

/-! ## Moving intervals -/

/-- An interval is taken off the active list, or it is missed there for a cause in `P`. -/
def Takes (P : Fault → Prop) (g : Graph) (x : Allocator × IntervalId) : Prop :=
  MissingFor P (removeAlike g x.1.notes x.2 x.1.active)

/-- What the tree `t` asks for is looked for among its restores, and finds room or a victim that
is taken off the active list, without other causes to stop than those in `P`. -/
structure Obtains (P : Fault → Prop) (g : Graph) (t : Tree) (x : Allocator × IntervalId) :
    Prop where
  finds : (x.1.interval x.2).owner.isResultOf t = false →
    MissingFor P (restoresAlike g x.1.notes x.2 (x.1.notes.tree t).restores)
  evicts : ∀ y ∈ evictRemovals t x, Takes P g y
  room : x.1.NoRoom (x.1.notes.index t) x.2 → P (x.1.noVictim (x.1.notes.index t))

theorem takes_of_record (hP : ∀ fault, OfRecord fault → P fault)
    (x : Allocator × IntervalId) : Takes P g x :=
  fun fault h => hP fault (missingFor_removeAlike g _ _ _ fault h)

theorem obtains_of_move (hP : ∀ fault, OfMove fault → P fault)
    (x : Allocator × IntervalId) : Obtains P g t x where
  finds _ fault h := hP fault (missingFor_restoresAlike g _ _ _ fault h).ofMove
  evicts y _ := takes_of_record (fun _ h => hP _ h.ofMove) y
  room _ := hP _ trivial

theorem confined_recordSpill (sp : Spill) : Confined D P (recordSpill t sp) s :=
  confined_modifyTree fun _ => rfl

theorem confined_recordRestore (r : Restore) : Confined D P (recordRestore t r) s :=
  confined_modifyTree fun _ => rfl

theorem confined_setLiveIn (reg : Option Int) : Confined D P (setLiveIn i reg) s :=
  confined_modify rfl

theorem confined_pushActive : Confined D P (pushActive i) s :=
  confined_modify rfl

theorem confined_occupy (hP : Admits P OfPosition) (reg : Option Int)
    (content : Option IntervalId) : Confined D P (occupy reg content) s := by
  refine confined_get ((confined_ofExcept ?_).bind fun k s₁ h => ?_)
  · exact hP.missing (missingFor_resolve? _ _)
  · obtain rfl := (ofExcept_cases h).2
    exact fun hs => hs

theorem confined_dropActive (h : Takes P g (s, i)) : Confined D P (dropActive g i) s := by
  refine confined_get ((confined_ofExcept h).bind fun rest s₁ h => ?_)
  obtain rfl := (ofExcept_cases h).2
  exact fun hs => hs

theorem confined_slotOf (hP : Admits P OfPosition) (s₁ : Allocator) :
    Confined D P (ofExcept (s₁.slotOf t)) s :=
  confined_ofExcept (hP.missing (missingFor_slotOf s₁ t))

theorem confined_releaseEach (hP : Admits P OfPosition) (pos : Nat) (is : List IntervalId) :
    Confined D P (releaseEach pos is) s := by
  induction is generalizing s with
  | nil => exact confined_pure _
  | cons i is ih =>
      refine confined_get ?_
      split
      · refine Confined.bind (confined_interval ?_) fun _ s₁ _ => ih
        exact (confined_occupy hP _ _).bind fun _ s₁ _ => confined_setLiveIn none
      · exact ih.bind fun _ s₁ _ => confined_pure _

theorem confined_release (hP : Admits P OfPosition) : Confined D P (release t) s :=
  confined_get ((confined_releaseEach hP _ _).bind fun _ _ _ => confined_modify rfl)

theorem confined_tryActivate (hP : Admits P OfRecord)
    (hfinds : (s.interval i).owner.isResultOf t = false →
      MissingFor P (restoresAlike g s.notes i (s.notes.tree t).restores)) :
    Confined D P (tryActivate g t i) s := by
  have hreload : ∀ reg : Nat, Confined D P (recordReload g t i reg) s := by
    intro reg
    refine confined_get ?_
    cases hresult : (s.interval i).owner.isResultOf t with
    | true => exact confined_pure _
    | false =>
        refine (confined_ofExcept (hfinds hresult)).bind fun found _ _ => ?_
        split
        · exact confined_modifyTree fun _ => rfl
        · exact confined_pure _
  refine confined_get ((confined_ofExcept (missingFor_choose hP _ _ _)).bind fun choice s₁ hs => ?_)
  obtain rfl := (ofExcept_cases hs).2
  split
  · exact confined_pure _
  · exact (hreload _).bind fun _ s₁ _ => (confined_setLiveIn _).bind fun _ s₂ _ =>
      (confined_occupy hP.ofPosition _ _).bind fun _ s₃ _ => confined_pushActive.bind
        fun _ s₄ _ => confined_pure _

theorem confined_spill (hP : Admits P OfRecord) (h : ∀ x ∈ spillRemovals t i s, Takes P g x) :
    Confined D P (spill g t i) s := by
  -- what is left to do when the spill is recorded
  have hdrop : ∀ {s₁ : Allocator} (reg : Int),
      Takes P g ({ s₁ with notes := s₁.notes.place i none }, i) →
      Confined D P (do
        setLiveIn i none
        dropActive g i
        occupy (some reg) none
        return reg) s₁ := by
    intro s₁ reg htakes
    refine (confined_setLiveIn none).andThen (setLiveIn_apply i none s₁) ?_
    exact (confined_dropActive htakes).bind fun _ s₂ _ =>
      (confined_occupy hP.ofPosition _ _).bind fun _ s₃ _ => confined_pure _
  refine confined_get ?_
  rw [spillRemovals] at h
  cases hlive : (s.interval i).liveIn with
  | none => exact confined_throw (hP _ trivial trivial)
  | some reg =>
      simp only [hlive] at h ⊢
      refine (confined_recordSpill _).andThen (modify_apply _ s) ?_
      cases htemp : (s.interval i).owner.isTemp with
      | false =>
          simp only [htemp, Bool.false_eq_true, if_false, List.mem_singleton, forall_eq] at h ⊢
          exact hdrop reg h
      | true =>
          simp only [htemp, if_true] at h ⊢
          cases huse : s.notes.nextUse i (s.notes.index t) with
          | none => exact confined_throw_bind (hP _ trivial trivial)
          | some use =>
              simp only [huse, List.mem_singleton, forall_eq] at h ⊢
              refine (confined_recordRestore _).andThen (modify_apply _ _) ?_
              exact hdrop reg h

theorem confined_evictFor (hP : Admits P OfMove) (hlive : (s.interval i).liveIn = none)
    (hfree : s.freeRegisters = []) (hobtains : Obtains P g t (s, i)) :
    Confined D P (evictFor g t i) s := by
  have h := hobtains.evicts
  refine confined_get ?_
  rw [evictRemovals, if_pos ⟨hlive, hfree⟩] at h
  dsimp only at h ⊢
  cases huse : s.notes.nextUse i (s.notes.index t) with
  | none => exact confined_throw (hP _ trivial trivial)
  | some use =>
      simp only [huse] at h ⊢
      cases hvictim : s.victim (s.notes.index t) (s.notes.index use) none s.active with
      | none =>
          have hpassed := (Allocator.victim_eq_none_iff.mp hvictim).2
          exact confined_throw (hobtains.room ⟨hlive, hfree, use, huse, hpassed⟩)
      | some v =>
          simp only [hvictim] at h
          exact (confined_spill hP.ofRecord h).bind fun reg s₁ _ =>
            (confined_setLiveIn _).bind fun _ s₂ _ =>
              (confined_occupy hP.ofRecord.ofPosition _ _).bind fun _ s₃ _ => confined_pushActive

theorem confined_activate (hP : Admits P OfMove) (h : Obtains P g t (s, i)) :
    Confined D P (activate g t i) s := by
  refine confined_interval ?_
  cases hlive : (s.interval i).liveIn with
  | some reg => exact confined_pure _
  | none =>
      rw [if_pos Option.isNone_none]
      refine (confined_tryActivate hP.ofRecord h.finds).bind fun done s₁ htry => ?_
      rcases tryActivate_cases htry with ⟨rfl, hchoose, rfl⟩ | ⟨rfl, -⟩
      · exact confined_evictFor hP hlive (Allocator.choose_eq_none_iff.mp hchoose) h
      · exact confined_pure _

/-! ## The scan of a tree -/

theorem confined_carrySpills (hP : Admits P OfSpill) {sps : List Spill}
    (h : ∀ y ∈ carryRemovals g sps s, Takes P g y) : Confined D P (carrySpills g sps) s := by
  induction sps generalizing s with
  | nil => exact confined_pure _
  | cons sp sps ih =>
      rw [carryRemovals] at h
      have hfirst : Confined D P (carrySpill g sp) s := by
        refine confined_interval ?_
        dsimp only
        split
        · exact confined_throw_bind (hP _ trivial trivial)
        · split
          · exact confined_throw_bind (hP _ trivial trivial)
          · exact (confined_dropActive (h _ (by simp))).bind fun _ s₁ _ =>
              (confined_occupy (hP.mono fun _ h => h.ofRecord.ofSpill) _ _).bind
                fun _ s₂ _ => confined_setLiveIn none
      refine hfirst.bind fun _ s₁ hcarry => ih fun y hy => h y ?_
      rw [hcarry]
      exact List.mem_cons_of_mem _ hy

theorem confined_carryRestores (hP : Admits P OfTree) {k : Nat} {rs : List Restore}
    (h : ∀ q ∈ restoreRequests g t k rs s, Obtains P g t q) :
    Confined D P (carryRestores g t k rs) s := by
  induction rs generalizing k s with
  | nil => exact confined_pure _
  | cons r rs ih =>
      rw [restoreRequests] at h
      have hfirst : Confined D P (carryRestore g t k r) s := by
        refine confined_interval ?_
        split
        · exact confined_throw_bind (hP _ trivial trivial)
        · refine (confined_activate (hP.mono fun _ => OfMove.ofTree) (h _ (by simp))).bind
            fun _ s₁ _ => confined_interval ?_
          exact confined_modifyTree fun _ => rfl
      refine hfirst.bind fun _ s₁ hcarry => ih fun q hq => h q ?_
      rw [hcarry]
      exact List.mem_cons_of_mem _ hq

theorem confined_prepare (hP : Admits P OfTree)
    (hspills : ∀ s₁, release t { s with reuse := false } = .ok () s₁ →
      ∀ y ∈ carryRemovals g (s₁.notes.tree t).spills s₁, Takes P g y)
    (h : ∀ q ∈ recordedRequests g t s, Obtains P g t q) : Confined D P (prepare g t) s := by
  have hrelease : ∀ s₁, Confined D P (release t) s₁ := fun _ =>
    confined_release (hP.mono fun _ h => h.ofMove.ofTree)
  refine confined_get (Confined.andThen (confined_modify rfl) (modify_apply _ s) ?_)
  refine (hrelease _).bind fun _ s₁ hfirst => confined_get ?_
  refine (confined_carrySpills (hP.mono fun _ => OfSpill.ofTree) (hspills s₁ hfirst)).bind
    fun _ s₂ hcarry => confined_get ?_
  refine Confined.bind (confined_carryRestores hP fun q hq => h q ?_) fun _ s₃ _ =>
    Confined.bind (confined_modify rfl) fun _ s₄ _ => ?_
  · rw [recordedRequests, bind_apply_of_ok hfirst, bind_apply_of_ok (get_apply s₁), hcarry]
    exact hq
  · split
    · exact hrelease _
    · exact confined_pure _

theorem confined_settle (hP : Admits P OfRecord) {reg : Int}
    (h : ∀ k j, Position.resolve s.registers.length reg = .ok k → (s.registers[k]?).join = some j →
      ∀ y ∈ if (s.interval j).owner.isTemp then [(s, j)] else spillRemovals t j s, Takes P g y) :
    Confined D P (settle g t i reg) s := by
  have hclear : Confined D P (clearFor g t reg) s := by
    have hoccupant : Confined D P (occupant (some reg)) s :=
      confined_get ((confined_ofExcept
        (hP.ofPosition.missing (missingFor_resolve? _ _))).bind fun _ s₁ _ => confined_pure _)
    refine hoccupant.bind fun content s₁ hcontent => ?_
    obtain ⟨k, hk, hcontent, hs₁⟩ := occupant_cases hcontent
    rw [hcontent, hs₁]
    cases hj : (s.registers[k]?).join with
    | none => exact confined_pure _
    | some j =>
        have htake := h k j hk hj
        refine confined_interval ?_
        split
        · next htemp =>
            rw [if_pos htemp] at htake
            exact confined_dropActive (htake _ (by simp))
        · next htemp =>
            rw [if_neg htemp] at htake
            exact (confined_spill hP htake).bind fun _ s₁ _ => confined_pure _
  have hrest : ∀ s₁ : Allocator, Confined D P (do
      setLiveIn i (some reg)
      occupy (some reg) (some i)) s₁ := fun _ =>
    (confined_setLiveIn _).bind fun _ s₂ _ => confined_occupy hP.ofPosition _ _
  refine hclear.bind fun _ s₁ _ => confined_interval ?_
  split
  · exact Confined.bind (confined_modify rfl) fun _ s₂ _ =>
      (confined_occupy hP.ofPosition _ _).bind fun _ s₃ _ => hrest s₃
  · exact confined_pushActive.bind fun _ s₂ _ => hrest s₂

/-- A store without operands stops before it takes anything. -/
theorem confined_scanStore (hP : Admits P OfRecord) (hkind : t.kind = .stLocal)
    (hD : ∀ id, D id → g.twins = {} ∧ (t.id = id → t.operands = []))
    (h : ∀ y ∈ storeRemovals t s, Takes P g y) : Confined D P (scanStore g t) s := by
  intro hs
  have hother : ∀ i, s.slotOf t = .ok i → ∀ id, D id → t.id ≠ id := by
    rintro i hslot id hid rfl
    have hoperands : s.notes.operands t = [] := by
      rw [Notes.operands, (hD _ hid).2 rfl, Notes.tree, hs _ hid]
      rfl
    rw [Allocator.slotOf, hoperands] at hslot
    cases hslot
  refine (show Confined D P (scanStore g t) s from ?_) hs
  refine confined_get ((confined_slotOf hP.ofPosition s).bind fun i s₁ hok => ?_)
  obtain ⟨hslot, rfl⟩ := ofExcept_cases hok
  have htake : ∀ (reg : Int) (s₁ : Allocator), Confined D P
      (modifyNotes fun n => (g.sharers t).foldl (fun n u => n.addStored u reg) n) s₁ := by
    intro reg s₁ hs₁ id hid
    rw [Graph.sharers_of_twins_eq_empty (hD id hid).1]
    change ((s₁.notes.addStored t reg).trees.get id).stored = []
    rw [Notes.addStored, Notes.modifyTree, Table.get_modify, if_neg (hother i hslot id hid)]
    exact hs₁ id hid
  simp only [storeRemovals, hkind, hslot] at h
  cases hsubtrees : t.subtrees with
  | nil => exact confined_throw (hP _ trivial trivial)
  | cons value rest =>
      simp only [hsubtrees] at h ⊢
      refine confined_get (confined_interval ?_)
      split
      · next hlive =>
          rw [if_neg hlive] at h
          refine Confined.bind (confined_settle hP fun k j hk hj => ?_) fun _ s₂ _ => htake _ s₂
          simpa only [hk, hj] using h
      · exact htake _ _

/-- The register of an interval is noted at a tree, if it is in one. -/
theorem confined_noteReg : Confined D P (do
    match (← interval i).liveIn with
    | some reg => setReg t reg
    | none => pure ()) s := by
  refine confined_interval ?_
  split
  · exact confined_modifyTree fun _ => rfl
  · exact confined_pure _

theorem confined_place (hP : Admits P OfMove)
    (hD : ∀ id, D id → g.twins = {} ∧ (t.id = id → t.operands = []))
    (hrequests : ∀ q ∈ placeRequests g t s, Obtains P g t q)
    (hstore : ∀ y ∈ storeRemovals t s, Takes P g y) : Confined D P (place g t) s := by
  rw [place]
  rw [placeRequests] at hrequests
  split
  · next hkind =>
      simp only [hkind] at hrequests
      refine confined_get ((confined_slotOf hP.ofRecord.ofPosition s).bind fun i s₁ hok => ?_)
      obtain ⟨hslot, rfl⟩ := ofExcept_cases hok
      simp only [hslot, List.mem_singleton, forall_eq] at hrequests
      exact (confined_activate hP hrequests).bind fun _ s₂ _ => confined_noteReg
  · next hkind => exact confined_scanStore hP.ofRecord hkind hD hstore
  · split
    · next p hparent =>
        simp only [hparent] at hrequests
        refine confined_get (Confined.andThen (confined_modify rfl) (modify_apply _ s) ?_)
        exact (confined_activate hP (hrequests _ (List.mem_singleton_self _))).bind
          fun _ s₂ _ => confined_noteReg
    · exact confined_pure _

theorem confined_scanTree (hP : Admits P OfTree) {v : Visit}
    (hD : ∀ id, D id → g.twins = {} ∧ (v.tree.id = id → v.tree.operands = []))
    (hremovals : ∀ y ∈ v.removals g, Takes P g y)
    (hfinds : ∀ q ∈ v.requests g, (q.1.interval q.2).owner.isResultOf v.tree = false →
      MissingFor P (restoresAlike g q.1.notes q.2 (q.1.notes.tree v.tree).restores))
    (hroom : ∀ q ∈ v.requests g, q.1.NoRoom (q.1.notes.index v.tree) q.2 →
      P (q.1.noVictim (q.1.notes.index v.tree))) :
    Confined D P (scanTree g v.tree) v.before := by
  have hobtains : ∀ q ∈ v.requests g, Obtains P g v.tree q := by
    intro q hq
    refine ⟨hfinds q hq, fun y hy => hremovals y ?_, hroom q hq⟩
    rw [Visit.removals]
    exact List.mem_append_left _ (List.mem_append_right _ (List.mem_flatMap.mpr ⟨q, hq, hy⟩))
  refine Confined.andThen (confined_modify rfl) (modify_apply _ v.before) ?_
  refine Confined.bind (confined_prepare hP ?_ ?_) fun _ s₁ hprepare =>
    confined_place (hP.mono fun _ => OfMove.ofTree) hD ?_ ?_
  · intro s₁ hrelease y hy
    refine hremovals y ?_
    rw [Visit.removals, hrelease]
    exact List.mem_append_left _ (List.mem_append_left _ hy)
  · intro q hq
    exact hobtains q (List.mem_append_left _ hq)
  · intro q hq
    refine hobtains q ?_
    rw [Visit.requests, requests]
    refine List.mem_append_right _ ?_
    rw [hprepare]
    exact hq
  · intro y hy
    refine hremovals y ?_
    rw [Visit.removals]
    refine List.mem_append_right _ ?_
    rw [hprepare]
    exact hy

/-- Whatever the state, the scan of a tree stops only for its own causes. -/
theorem confined_scanTree_of_tree (hP : ∀ fault, OfTree fault → P fault) {v : Visit}
    (hD : ∀ id, D id → g.twins = {} ∧ (v.tree.id = id → v.tree.operands = [])) :
    Confined D P (scanTree g v.tree) v.before := by
  have hobtains : ∀ q, Obtains P g v.tree q := obtains_of_move fun fault h => hP fault h.ofTree
  exact confined_scanTree (fun fault h _ => hP fault h) hD
    (fun y _ => takes_of_record (fun fault h => hP fault h.ofMove.ofTree) y)
    (fun q _ => (hobtains q).finds) fun q _ => (hobtains q).room

theorem confined_scanTrees {ts : List Tree}
    (h : ∀ v ∈ visitTrees g ts s, Confined D P (scanTree g v.tree) v.before) :
    Confined D P (scanTrees g ts) s := by
  induction ts generalizing s with
  | nil => exact confined_pure _
  | cons t ts ih =>
      rw [visitTrees] at h
      refine Confined.bind (h ⟨t, s⟩ (by simp)) fun _ s₁ hfirst => ih fun v hv => h v ?_
      rw [hfirst]
      exact List.mem_cons_of_mem _ hv

/-! ## Between the trees -/

theorem confined_seat (hP : Admits P OfPosition) (cs : List Crossing) :
    Confined D P (seat cs) s := by
  induction cs generalizing s with
  | nil => exact confined_pure _
  | cons c cs ih =>
      exact (confined_occupy hP _ _).bind fun _ s₁ _ => (confined_setLiveIn _).bind fun _ s₂ _ =>
        confined_pushActive.bind fun _ s₃ _ => ih

theorem confined_enter (hP : Admits P OfEntry) (b : BlockId) : Confined D P (enter b) s := by
  have hforget : ∀ (is : List IntervalId) (s : Allocator), Confined D P (forget is) s := by
    intro is
    induction is with
    | nil => exact fun _ => confined_pure _
    | cons i is ih => exact fun _ => (confined_setLiveIn none).bind fun _ s₁ _ => ih s₁
  have hclear : ∀ s, Confined D P clear s := fun s =>
    Confined.bind (confined_modify rfl) fun _ s₁ _ => confined_get
      ((hforget _ s₁).bind fun _ s₂ _ => confined_modify rfl)
  refine Confined.bind (confined_modify rfl) fun _ s₁ _ => (hclear s₁).bind fun _ s₂ _ =>
    confined_get ?_
  dsimp only
  split
  · exact confined_pure _
  · split
    · exact confined_throw (hP _ trivial trivial)
    · exact (confined_seat (hP.mono fun _ => OfPosition.ofEntry) _).bind
        fun _ s₃ _ => confined_modify rfl

theorem confined_depart (hP : Admits P OfPosition) (b : BlockId) :
    Confined D P (depart b) s := by
  have hdrop : ∀ (is : List IntervalId) (s : Allocator), Confined D P (dropTemps is) s := by
    intro is
    induction is with
    | nil => exact fun _ => confined_pure _
    | cons i is ih =>
        intro s
        refine confined_interval ?_
        split
        · exact (confined_occupy hP _ _).bind fun _ s₁ _ => (confined_setLiveIn none).bind
            fun _ s₂ _ => ih s₂
        · exact (ih s).bind fun _ s₁ _ => confined_pure _
  exact confined_get ((hdrop _ s).bind fun _ s₁ _ => confined_modify rfl)

theorem confined_scanBlocks (hP : Admits P OfEntry) {bs : List BlockId}
    (h : ∀ v ∈ visitBlocks g bs s, Confined D P (scanTree g v.tree) v.before) :
    Confined D P (scanBlocks g bs) s := by
  induction bs generalizing s with
  | nil => exact confined_pure _
  | cons b bs ih =>
      rw [visitBlocks] at h
      have hblock : Confined D P (scanBlock g b) s := by
        refine (confined_enter hP b).bind fun _ s₁ henter => ?_
        refine Confined.bind (confined_scanTrees fun v hv => h v ?_) fun _ s₂ _ =>
          confined_depart (hP.mono fun _ => OfPosition.ofEntry) b
        rw [henter]
        exact List.mem_append_left _ hv
      refine hblock.bind fun _ s₁ hscan => ih fun v hv => h v ?_
      obtain ⟨_, s₂, henter, -⟩ := exists_of_bind_apply_eq_ok hscan
      rw [henter, hscan]
      exact List.mem_append_right _ hv

theorem tree_mem_of_mem_visitTrees {ts : List Tree} {v : Visit} (h : v ∈ visitTrees g ts s) :
    v.tree ∈ ts := by
  induction ts generalizing s with
  | nil => cases h
  | cons t ts ih =>
      rw [visitTrees] at h
      rcases List.mem_cons.mp h with rfl | h
      · exact List.mem_cons_self
      · split at h
        · exact List.mem_cons_of_mem t (ih h)
        · cases h

/-- A visit takes nothing from stores without operands. -/
theorem confined_of_mem_visitBlocks (hg : g.twins = {})
    (hD : ∀ b, ∀ t ∈ g.treesOf b, D t.id → t.operands = []) {bs : List BlockId} {v : Visit}
    (hv : v ∈ visitBlocks g bs s) :
    Confined D (fun _ => True) (scanTree g v.tree) v.before := by
  have hblock : ∃ b, v.tree ∈ g.treesOf b := by
    induction bs generalizing s with
    | nil => cases hv
    | cons b bs ih =>
        rw [visitBlocks] at hv
        split at hv
        · rcases List.mem_append.mp hv with hv | hv
          · exact ⟨b, tree_mem_of_mem_visitTrees hv⟩
          · split at hv
            · exact ih hv
            · cases hv
        · cases hv
  obtain ⟨b, hb⟩ := hblock
  refine confined_scanTree_of_tree (fun _ _ => trivial) fun id hid => ⟨hg, ?_⟩
  rintro rfl
  exact hD b v.tree hb hid

/-! ## Before and after the blocks -/

theorem confined_survey (hP : Admits P OfSurvey) (ir : Ir) : Confined D P (survey g ir) s := by
  have hslot : Admits P OfPosition := hP.mono fun _ => OfPosition.ofSurvey
  have hcreate : ∀ (k count : Nat) (s : Allocator), Confined D P (createSlots ir k count) s := by
    intro k count
    induction count generalizing k with
    | zero => exact fun _ => confined_pure _
    | succ count ih =>
        exact fun s => Confined.bind (confined_modify rfl) fun _ s₁ _ => ih (k + 1) s₁
  have htree : ∀ (t : Tree) (s : Allocator), Confined D P (surveyTree g t) s := by
    intro t s
    rw [surveyTree]
    split
    · exact confined_get ((confined_slotOf hslot s).bind fun _ s₁ _ => confined_modify rfl)
    · refine confined_get ((confined_slotOf hslot s).bind fun _ s₁ _ => ?_)
      split
      · exact confined_throw (hP _ trivial trivial)
      · exact confined_modify rfl
    · exact confined_pure _
  have htrees : ∀ (ts : List Tree) (s : Allocator), Confined D P (surveyTrees g ts) s := by
    intro ts
    induction ts with
    | nil => exact fun _ => confined_pure _
    | cons t ts ih => exact fun s => (htree t s).bind fun _ s₁ _ => ih s₁
  have hextend : ∀ (n : Notes) (last : Nat) (is : List IntervalId),
      (n.extendReads last is).trees = n.trees := by
    intro n last is
    induction is generalizing n with
    | nil => rfl
    | cons i is ih => exact ih _
  have hblocks : ∀ (bs : List BlockId) (s : Allocator), Confined D P (surveyBlocks g ir bs) s := by
    intro bs
    induction bs with
    | nil => exact fun _ => confined_pure _
    | cons b bs ih =>
        exact fun s => (htrees _ s).bind fun _ s₁ _ =>
          Confined.bind (confined_modify (hextend s₁.notes _ _)) fun _ s₂ _ => ih s₂
  exact Confined.bind (confined_modify rfl) fun _ s₁ _ => (hcreate 0 _ s₁).bind
    fun _ s₂ _ => hblocks _ s₂

theorem confined_resolveEdges (hP : Admits P OfEdges) (bs : List BlockId) :
    Confined D P (resolveEdges g bs) s := by
  have hedge : ∀ b e target s, Confined D P (resolveEdge g b e target) s := by
    intro b e target s
    refine confined_get ?_
    dsimp only
    split
    · exact confined_throw (hP _ trivial trivial)
    · exact fun hs => hs
  have hedges : ∀ (b : BlockId) (os : List Operand) (s : Allocator),
      Confined D P (eachEdge (resolveEdge g b) os) s := by
    intro b os
    induction os with
    | nil => exact fun _ => confined_pure _
    | cons o os ih =>
        cases o with
        | literal l => exact fun _ => confined_throw (hP _ trivial trivial)
        | operator op => exact fun _ => confined_throw (hP _ trivial trivial)
        | edge e target => exact fun s => (hedge b e target s).bind fun _ s₁ _ => ih s₁
  induction bs generalizing s with
  | nil => exact confined_pure _
  | cons b bs ih =>
      refine confined_get (Confined.bind ?_ fun _ s₁ _ => ih)
      rw [Ir.eachExit]
      cases hlast : g.terminator b with
      | ok t => exact hedges b _ s
      | error fault =>
          have hfault : fault = .noTerminator := by
            rw [Graph.terminator] at hlast
            split at hlast <;> cases hlast
            rfl
          subst hfault
          exact confined_throw (hP _ trivial trivial)

theorem confined_scan (hsurvey : Admits P OfSurvey) (hentry : Admits P OfEntry)
    (hedges : Admits P OfEdges) {ir : Ir}
    (h : ∀ s₁, survey g ir s = .ok () s₁ → ∀ v ∈ visitBlocks g (ir.blocks g) s₁,
      Confined D P (scanTree g v.tree) v.before) : Confined D P (scan g ir) s := by
  refine (confined_survey hsurvey ir).bind fun _ s₁ hfirst => ?_
  exact (confined_scanBlocks hentry (h s₁ hfirst)).bind fun _ s₂ _ =>
    confined_resolveEdges hedges _

end Alloc
end LinearScan
