import LinearScan.Proofs.Moves

/-!
# What a scan leaves unchanged

While the trees of a block are scanned, registers fill and empty and notes are taken,
but the places of the trees, the lives of the intervals, the number of registers and
what is noted about blocks and edges stay as they are.  New intervals may come in.
-/

namespace LinearScan

/-- All there is to an interval, apart from the register that holds it. -/
def Interval.life (iv : Interval) : Interval :=
  { iv with liveIn := none }

@[simp]
theorem Notes.life_place (n : Notes) (i j : IntervalId) (reg : Option Int) :
    ((n.place i reg).interval j).life = (n.interval j).life := by
  rw [Notes.interval_place]
  split <;> rfl

namespace Allocator

/-- `s'` differs from `s` only in what a scan may change. -/
structure Continues (s s' : Allocator) : Prop where
  size_eq : s'.registers.length = s.registers.length
  slots_eq : s'.slots = s.slots
  edges_eq : s'.notes.edges = s.notes.edges
  index_eq : ∀ u, s'.notes.index u = s.notes.index u
  predecessors_eq : ∀ b, (s'.notes.block b).predecessors = (s.notes.block b).predecessors
  count_le : s.notes.intervalCount ≤ s'.notes.intervalCount
  life_eq : ∀ i, i < s.notes.intervalCount → (s'.interval i).life = (s.interval i).life

/-- `s'` differs from `s` only in what the scan of the trees of a block may change. -/
structure Extends (s s' : Allocator) : Prop extends Continues s s' where
  block_eq : s'.block = s.block
  blocks_eq : s'.notes.blocks = s.notes.blocks
  crossings_eq : s'.notes.crossingsCount = s.notes.crossingsCount

namespace Continues

variable {s s₁ s' : Allocator} {i : IntervalId}

theorem refl (s : Allocator) : s.Continues s :=
  ⟨rfl, rfl, rfl, fun _ => rfl, fun _ => rfl, Nat.le_refl _, fun _ _ => rfl⟩

theorem trans (h : s.Continues s₁) (h' : s₁.Continues s') : s.Continues s' where
  size_eq := h'.size_eq.trans h.size_eq
  slots_eq := h'.slots_eq.trans h.slots_eq
  edges_eq := h'.edges_eq.trans h.edges_eq
  index_eq u := (h'.index_eq u).trans (h.index_eq u)
  predecessors_eq b := (h'.predecessors_eq b).trans (h.predecessors_eq b)
  count_le := Nat.le_trans h.count_le h'.count_le
  life_eq i hi := (h'.life_eq i (Nat.lt_of_lt_of_le hi h.count_le)).trans (h.life_eq i hi)

section

variable (h : s.Continues s') (hi : i < s.notes.intervalCount)
include h hi

theorem owner_eq : (s'.interval i).owner = (s.interval i).owner := by
  have hlife := congrArg Interval.owner (h.life_eq i hi)
  exact hlife

theorem uses_eq : (s'.interval i).uses = (s.interval i).uses := by
  have hlife := congrArg Interval.uses (h.life_eq i hi)
  exact hlife

theorem writes_eq : (s'.interval i).writes = (s.interval i).writes := by
  have hlife := congrArg Interval.writes (h.life_eq i hi)
  exact hlife

theorem lastRead_eq : (s'.interval i).lastRead = (s.interval i).lastRead := by
  have hlife := congrArg Interval.lastRead (h.life_eq i hi)
  exact hlife

theorem nextUse_eq (pos : Int) : s'.notes.nextUse i pos = s.notes.nextUse i pos := by
  have huses : (s'.notes.interval i).uses = (s.notes.interval i).uses := h.uses_eq hi
  simp only [Notes.nextUse, huses, h.index_eq]

end

end Continues

namespace Extends

variable {s s₁ s' : Allocator}

theorem refl (s : Allocator) : s.Extends s :=
  ⟨.refl s, rfl, rfl, rfl⟩

theorem trans (h : s.Extends s₁) (h' : s₁.Extends s') : s.Extends s' where
  toContinues := h.toContinues.trans h'.toContinues
  block_eq := h'.block_eq.trans h.block_eq
  blocks_eq := h'.blocks_eq.trans h.blocks_eq
  crossings_eq := h'.crossings_eq.trans h.crossings_eq

theorem block_notes_eq (h : s.Extends s') (b : BlockId) : s'.notes.block b = s.notes.block b := by
  rw [Notes.block, Notes.block, h.blocks_eq]

/-- A change outside the notes. -/
theorem of_notes_eq (hsize : s'.registers.length = s.registers.length) (hslots : s'.slots = s.slots)
    (hblock : s'.block = s.block) (hnotes : s'.notes = s.notes) : s.Extends s' where
  size_eq := hsize
  slots_eq := hslots
  edges_eq := by rw [hnotes]
  index_eq _ := by rw [hnotes]
  predecessors_eq _ := by rw [hnotes]
  count_le := Nat.le_of_eq (by rw [hnotes])
  life_eq _ _ := by rw [Allocator.interval, Allocator.interval, hnotes]
  block_eq := hblock
  blocks_eq := by rw [hnotes]
  crossings_eq := by rw [hnotes]

end Extends
end Allocator

namespace Alloc

open Allocator

variable {g : Graph} {t : Tree} {i : IntervalId} {s s' : Allocator}

/-! ## Reading back the notes on a spill -/

section SpillNotes

variable (n : Notes) (reg : Int) (use : Option Tree)

theorem interval_spillNotes (j : IntervalId) :
    (spillNotes n t i reg use).interval j = (n.place i none).interval j := by
  cases use <;>
    simp only [spillNotes, Notes.interval, Notes.place, Notes.addSpill, Notes.addRestore,
      Notes.modifyTree, Notes.modifyInterval]

@[simp]
theorem blocks_spillNotes : (spillNotes n t i reg use).blocks = n.blocks := by
  cases use <;>
    simp only [spillNotes, Notes.place, Notes.addSpill, Notes.addRestore, Notes.modifyTree,
      Notes.modifyInterval]

@[simp]
theorem edges_spillNotes : (spillNotes n t i reg use).edges = n.edges := by
  cases use <;>
    simp only [spillNotes, Notes.place, Notes.addSpill, Notes.addRestore, Notes.modifyTree,
      Notes.modifyInterval]

@[simp]
theorem crossingsCount_spillNotes :
    (spillNotes n t i reg use).crossingsCount = n.crossingsCount := by
  cases use <;>
    simp only [spillNotes, Notes.place, Notes.addSpill, Notes.addRestore, Notes.modifyTree,
      Notes.modifyInterval]

@[simp]
theorem intervalCount_spillNotes :
    (spillNotes n t i reg use).intervalCount = n.intervalCount := by
  cases use <;>
    simp only [spillNotes, Notes.place, Notes.addSpill, Notes.addRestore, Notes.modifyTree,
      Notes.modifyInterval]

theorem index_modifyTree (u v : Tree) {f : TreeNote → TreeNote}
    (hf : (f (n.tree u)).index = (n.tree u).index) :
    (n.modifyTree u f).index v = n.index v := by
  rw [Notes.index, Notes.tree_modifyTree]
  split
  · next huv =>
      have hrow : n.tree v = n.tree u := by rw [Notes.tree, Notes.tree, huv]
      rw [hrow, hf, ← hrow]
      rfl
  · rfl

@[simp]
theorem index_addSpill (u v : Tree) (sp : Spill) : (n.addSpill u sp).index v = n.index v :=
  index_modifyTree n u v rfl

@[simp]
theorem index_addRestore (u v : Tree) (r : Restore) : (n.addRestore u r).index v = n.index v :=
  index_modifyTree n u v rfl

@[simp]
theorem index_spillNotes (v : Tree) : (spillNotes n t i reg use).index v = n.index v := by
  cases use with
  | none => exact index_addSpill n t v _
  | some use => exact (index_addRestore _ use v _).trans (index_addSpill n t v _)

theorem spills_spillNotes (u : Tree) :
    ((spillNotes n t i reg use).tree u).spills =
      if t.id = u.id then (n.tree u).spills ++ [{ reg := some reg, interval := i }]
      else (n.tree u).spills := by
  have hspill : ((n.addSpill t { reg := some reg, interval := i }).tree u).spills =
      if t.id = u.id then (n.tree u).spills ++ [{ reg := some reg, interval := i }]
      else (n.tree u).spills := by
    rw [Notes.addSpill, Notes.tree_modifyTree]
    split <;> rfl
  cases use with
  | none => simpa [spillNotes] using hspill
  | some use =>
      rw [← hspill]
      simp only [spillNotes, Notes.tree_place, Notes.addRestore, Notes.tree_modifyTree]
      split <;> rfl

@[simp]
theorem reg_spillNotes (u : Tree) : (spillNotes n t i reg use).reg u = n.reg u := by
  have hspill : (n.addSpill t { reg := some reg, interval := i }).reg u = n.reg u := by
    rw [Notes.reg, Notes.addSpill, Notes.tree_modifyTree]
    split <;> rfl
  cases use with
  | none => simpa [spillNotes, Notes.reg] using hspill
  | some use =>
      rw [← hspill]
      simp only [spillNotes, Notes.reg, Notes.tree_place, Notes.addRestore, Notes.tree_modifyTree]
      split <;> rfl

end SpillNotes

/-! ## Steps -/

/-- A change of registers, of the active list and of where one interval lives. -/
theorem extends_place (s : Allocator) (i : IntervalId) (reg : Option Int)
    {registers : List (Option IntervalId)} (hsize : registers.length = s.registers.length)
    (active : List IntervalId) :
    s.Extends { s with notes := s.notes.place i reg, registers, active } where
  size_eq := hsize
  slots_eq := rfl
  block_eq := rfl
  blocks_eq := rfl
  edges_eq := rfl
  crossings_eq := rfl
  index_eq _ := rfl
  predecessors_eq _ := rfl
  count_le := Nat.le_refl _
  life_eq j _ := s.notes.life_place i j reg

/-- A change of one register and of where one interval lives. -/
theorem extends_seat (s : Allocator) (i : IntervalId) (reg : Option Int) (k : Nat) :
    s.Extends { s with notes := s.notes.place i reg, registers := s.registers.set k (some i) } :=
  extends_place s i reg (by simp) s.active

theorem extends_modifyTree (s : Allocator) (u : Tree) {f : TreeNote → TreeNote}
    (hf : (f (s.notes.tree u)).index = (s.notes.tree u).index) :
    s.Extends { s with notes := s.notes.modifyTree u f } where
  size_eq := rfl
  slots_eq := rfl
  block_eq := rfl
  blocks_eq := rfl
  edges_eq := rfl
  crossings_eq := rfl
  index_eq v := index_modifyTree s.notes u v hf
  predecessors_eq _ := rfl
  count_le := Nat.le_refl _
  life_eq _ _ := rfl

theorem Sifted.extends {drop : IntervalId → Bool} {is kept : List IntervalId}
    (h : Sifted drop is s kept s') : s.Extends s' := by
  induction h with
  | nil s => exact .refl s
  | @drop i _ _ s _ k _ _ _ ih => exact (extends_place s i none (by simp) s.active).trans ih
  | keep _ _ ih => exact ih

theorem extends_spill {reg : Int} (h : spill g t i s = .ok reg s') : s.Extends s' := by
  obtain ⟨use, k, rest, -, -, -, -, rfl⟩ := spill_cases h
  exact
    { size_eq := by simp
      slots_eq := rfl
      block_eq := rfl
      blocks_eq := by simp
      edges_eq := by simp
      crossings_eq := by simp
      index_eq := by simp
      predecessors_eq := by simp [Notes.block]
      count_le := by simp
      life_eq := by simp [Allocator.interval, interval_spillNotes] }

theorem Reloaded.extends {reg : Nat} {n : Notes} (h : Reloaded g t i reg s.notes n) :
    s.Extends { s with notes := n } := by
  rcases h.notes_cases with rfl | ⟨-, rfl⟩
  · exact .refl s
  · exact extends_modifyTree s t rfl

theorem Activated.extends (h : Activated g t i s s') : s.Extends s' := by
  cases h with
  | already => exact .refl s
  | free number filled n hlive hchoose hreload hfilled =>
      exact hreload.extends.trans (extends_place { s with notes := n } i _ (by simp) _)
  | evicted use v reg k s₁ hlive hchoose huse hvictim hspill hk =>
      exact (extends_spill hspill).trans (extends_place s₁ i _ (by simp) _)

theorem extends_clearFor {reg : Int} (h : clearFor g t reg s = .ok () s') : s.Extends s' := by
  obtain ⟨k, -, ⟨-, rfl⟩ | ⟨j, -, ⟨-, rest, -, rfl⟩ | ⟨-, old, hspill⟩⟩⟩ := clearFor_cases h
  · exact .refl s'
  · exact .of_notes_eq rfl rfl rfl rfl
  · exact extends_spill hspill

theorem Unseated.extends (h : Unseated i s s') : s.Extends s' := by
  cases h with
  | moved log hlive hold =>
      exact .of_notes_eq (by simp) rfl rfl rfl
  | entered hlive =>
      exact .of_notes_eq rfl rfl rfl rfl

theorem extends_settle {reg : Int} (h : settle g t i reg s = .ok () s') : s.Extends s' := by
  obtain ⟨s₁, s₂, k, hclear, hunseated, hk, rfl⟩ := settle_cases h
  exact (extends_clearFor hclear).trans
    (hunseated.extends.trans (extends_seat s₂ i _ k))

theorem extends_addInterval (s : Allocator) (iv : Interval) :
    s.Extends { s with notes := s.notes.addInterval iv } where
  size_eq := rfl
  slots_eq := rfl
  block_eq := rfl
  blocks_eq := rfl
  edges_eq := rfl
  crossings_eq := rfl
  index_eq _ := rfl
  predecessors_eq _ := rfl
  count_le := Nat.le_succ _
  life_eq i hi := by
    simp only [Allocator.interval, Notes.interval_addInterval, if_neg (Nat.ne_of_gt hi)]

theorem Move.extends {phase : Phase} (h : Move g t phase s s') : s.Extends s' := by
  cases h with
  | turn _ tree reuse =>
      exact .of_notes_eq rfl rfl rfl rfl
  | release hsifted =>
      exact hsifted.extends.trans (.of_notes_eq rfl rfl rfl rfl)
  | carrySpill sp reg k rest => exact extends_place s sp.interval none (by simp) rest
  | annotate f hindex => exact extends_modifyTree s t hindex
  | create p => exact extends_addInterval s _
  | settle i value rest _ _ _ _ hsettle => exact extends_settle hsettle

theorem Moves.extends {phase : Phase} {rs : List (Allocator × IntervalId)}
    (h : Moves g t phase rs s s') : s.Extends s' := by
  induction h with
  | nil s => exact .refl s
  | move hmove _ ih => exact hmove.extends.trans ih
  | activate _ hactivated _ ih => exact hactivated.extends.trans ih

end Alloc
end LinearScan
