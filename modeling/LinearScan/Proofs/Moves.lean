import LinearScan.Proofs.Effects

/-!
# The moves of a scan

The scan of a tree is a sequence of small moves: registers are released, recorded
spills are carried out, intervals are activated, a store settles its variable.  The
sequence is taken apart here, once.  An invariant of the scan is then an invariant of
each move.

The intervals for which a tree asks a register, with the states in which it asks, are
collected by `requests`.
-/

namespace LinearScan
namespace Alloc

variable {g : Graph} {t : Tree} {i : IntervalId} {s s' : Allocator}

/-! ## Requests -/

/-- The requests for the restores that are recorded at `t` from place `k` on. -/
def restoreRequests (g : Graph) (t : Tree) :
    Nat → List Restore → Allocator → List (Allocator × IntervalId)
  | _, [], _ => []
  | k, r :: rest, s =>
      (s, r.interval) ::
        match carryRestore g t k r s with
        | .ok _ s' => restoreRequests g t (k + 1) rest s'
        | .error _ _ => []

/-- The request for the value that `t` itself reads or produces. -/
def placeRequests (g : Graph) (t : Tree) (s : Allocator) : List (Allocator × IntervalId) :=
  match t.kind with
  | .ldLocal =>
      match s.slotOf t with
      | .ok i => [(s, i)]
      | .error _ => []
  | .stLocal => []
  | _ =>
      match g.parent t with
      | some p =>
          [({ s with notes := s.notes.addInterval (tempOf s.notes t p) }, s.notes.intervalCount)]
      | none => []

/-- The requests for all restores that are recorded at `t`. -/
def recordedRequests (g : Graph) (t : Tree) (s : Allocator) : List (Allocator × IntervalId) :=
  match (do release t; carrySpills g ((← get).notes.tree t).spills : Alloc Unit)
      { s with reuse := false } with
  | .ok _ s₁ => restoreRequests g t 0 (s₁.notes.tree t).restores s₁
  | .error _ _ => []

/-- The intervals for which the scan of `t` asks a register, each with the state in
which it is asked for. -/
def requests (g : Graph) (t : Tree) (s : Allocator) : List (Allocator × IntervalId) :=
  let s := { s with tree := some t }
  recordedRequests g t s ++
    match prepare g t s with
    | .ok _ s₁ => placeRequests g t s₁
    | .error _ _ => []

/-- The two parts of the scan of a tree. -/
inductive Phase where
  /-- Registers are released, and what is recorded at the tree is carried out. -/
  | preparing
  /-- The tree gets the register it needs. -/
  | placing

/-- Why the tree `t` asks for `i`: a restore is recorded, or `i` is the variable it
reads, or the value it produces. -/
inductive Requested (t : Tree) (i : IntervalId) (s : Allocator) : Phase → Prop
  | recorded {phase : Phase} (r : Restore) (hr : r ∈ (s.notes.tree t).restores)
      (hi : r.interval = i) : Requested t i s phase
  | load (hkind : t.kind = .ldLocal) (hslot : s.slotOf t = .ok i) : Requested t i s .placing
  | result (hi : i < s.notes.intervalCount) (howner : (s.interval i).owner = .temp t) :
      Requested t i s .placing

/-! ## Moves -/

/-- The moves of the scan of `t`, other than activations. -/
inductive Move (g : Graph) (t : Tree) : Phase → Allocator → Allocator → Prop
  /-- Another tree is scanned, or operands count otherwise. -/
  | turn {phase : Phase} (s : Allocator) (tree : Option Tree) (reuse : Bool) :
      Move g t phase s { s with tree, reuse }
  /-- The registers that are no longer needed become empty. -/
  | release {phase : Phase} {s s₁ : Allocator} {kept : List IntervalId}
      (h : Sifted (s.expired (s.notes.index t)) s.active s kept s₁) :
      Move g t phase s { s₁ with active := kept }
  /-- A recorded spill is carried out. -/
  | carrySpill {phase : Phase} {s : Allocator} (sp : Spill) (reg : Int) (k : Nat)
      (rest : List IntervalId) (hsp : sp ∈ (s.notes.tree t).spills)
      (hlive : (s.interval sp.interval).liveIn = some reg)
      (hrest : removeAlike g s.notes sp.interval s.active = .ok rest)
      (hk : Position.resolve s.registers.length reg = .ok k) :
      Move g t phase s { s with
        active := rest
        registers := s.registers.set k none
        notes := s.notes.place sp.interval none }
  /-- Registers are written into the note on `t`. -/
  | annotate {phase : Phase} {s : Allocator} (f : TreeNote → TreeNote)
      (hindex : (f (s.notes.tree t)).index = (s.notes.tree t).index)
      (hspills : (f (s.notes.tree t)).spills = (s.notes.tree t).spills)
      (hrestores : (f (s.notes.tree t)).restores.map Restore.interval =
        (s.notes.tree t).restores.map Restore.interval)
      (hreg : (f (s.notes.tree t)).reg = (s.notes.tree t).reg ∨
        ∃ i, (s.interval i).liveIn = some (f (s.notes.tree t)).reg) :
      Move g t phase s { s with notes := s.notes.modifyTree t f }
  /-- The result of `t` gets an interval. -/
  | create {s : Allocator} (p : Tree) (hparent : g.parent t = some p)
      (hload : t.kind ≠ .ldLocal) (hstore : t.kind ≠ .stLocal) :
      Move g t .placing s { s with notes := s.notes.addInterval (tempOf s.notes t p) }
  /-- A variable is in the register of the value that is stored to it. -/
  | settle {s s' : Allocator} (i : IntervalId) (value : Tree) (rest : List Tree)
      (hkind : t.kind = .stLocal) (hslot : s.slotOf t = .ok i)
      (hvalue : t.subtrees = value :: rest)
      (hlive : (s.interval i).liveIn ≠ some (s.notes.reg value))
      (h : Alloc.settle g t i (s.notes.reg value) s = .ok () s') :
      Move g t .placing s s'

/-- Sequences of moves and activations, with the requests on which the activations
were made. -/
inductive Moves (g : Graph) (t : Tree) (phase : Phase) :
    List (Allocator × IntervalId) → Allocator → Allocator → Prop
  | nil (s : Allocator) : Moves g t phase [] s s
  | move {rs : List (Allocator × IntervalId)} {s s₁ s' : Allocator}
      (h : Move g t phase s s₁) (hrest : Moves g t phase rs s₁ s') : Moves g t phase rs s s'
  | activate {rs : List (Allocator × IntervalId)} {i : IntervalId} {s s₁ s' : Allocator}
      (hreq : Requested t i s phase) (h : Activated g t i s s₁)
      (hrest : Moves g t phase rs s₁ s') :
      Moves g t phase ((s, i) :: rs) s s'

theorem Requested.placing {phase : Phase} (h : Requested t i s phase) :
    Requested t i s .placing := by
  cases h with
  | recorded r hr hi => exact .recorded r hr hi
  | load hkind hslot => exact .load hkind hslot
  | result hi howner => exact .result hi howner

theorem Move.placing {phase : Phase} (h : Move g t phase s s') : Move g t .placing s s' := by
  cases h with
  | turn _ tree reuse => exact .turn s tree reuse
  | release hsifted => exact .release hsifted
  | carrySpill sp reg k rest hsp hlive hrest hk =>
      exact .carrySpill sp reg k rest hsp hlive hrest hk
  | annotate f hindex hspills hrestores hreg => exact .annotate f hindex hspills hrestores hreg
  | create p hparent hload hstore => exact .create p hparent hload hstore
  | settle i value rest hkind hslot hvalue hlive hsettle =>
      exact .settle i value rest hkind hslot hvalue hlive hsettle

namespace Moves

variable {rs rs' : List (Allocator × IntervalId)} {s₁ : Allocator} {phase : Phase}

/-- What may be done while a tree is prepared may also be done later. -/
theorem placing (h : Moves g t phase rs s s') : Moves g t .placing rs s s' := by
  induction h with
  | nil s => exact .nil s
  | move hmove _ ih => exact .move hmove.placing ih
  | activate hreq hactivated _ ih => exact .activate hreq.placing hactivated ih

theorem single (h : Move g t phase s s') : Moves g t phase [] s s' :=
  .move h (.nil s')

theorem append (h : Moves g t phase rs s s₁) (h' : Moves g t phase rs' s₁ s') :
    Moves g t phase (rs ++ rs') s s' := by
  induction h with
  | nil s => exact h'
  | move hmove _ ih => exact .move hmove (ih h')
  | activate hreq hactivated _ ih => exact .activate hreq hactivated (ih h')

end Moves

/-! ## What is recorded stays recorded -/

theorem restores_addRestore (n : Notes) (u v : Tree) (r : Restore) :
    ((n.addRestore u r).tree v).restores =
      if u.id = v.id then (n.tree v).restores ++ [r] else (n.tree v).restores := by
  rw [Notes.addRestore, Notes.tree_modifyTree]
  split <;> rfl

theorem restores_spillNotes (n : Notes) (reg : Int) (use : Option Tree) (u : Tree) :
    ((spillNotes n t i reg use).tree u).restores =
      if use.map Tree.id = some u.id
      then (n.tree u).restores ++ [{ reg := some (-1), interval := i }]
      else (n.tree u).restores := by
  have hspill : ((n.addSpill t { reg := some reg, interval := i }).tree u).restores =
      (n.tree u).restores := by
    rw [Notes.addSpill, Notes.tree_modifyTree]
    split <;> rfl
  cases use with
  | none => simpa [spillNotes] using hspill
  | some use => simp [spillNotes, restores_addRestore, hspill]

theorem Reloaded.mem_restores {reg : Nat} {n n' : Notes} {r : Restore} {u : Tree}
    (h : Reloaded g t i reg n n') (hr : r ∈ (n.tree u).restores) : r ∈ (n'.tree u).restores := by
  rcases h.notes_cases with rfl | ⟨-, rfl⟩
  · exact hr
  · rw [restores_addRestore]
    split
    · exact List.mem_append_left _ hr
    · exact hr

theorem Activated.mem_restores {r : Restore} {u : Tree}
    (h : Activated g t i s s') (hr : r ∈ (s.notes.tree u).restores) :
    r ∈ (s'.notes.tree u).restores := by
  cases h with
  | already => exact hr
  | free number filled n hlive hchoose hreload hfilled => exact hreload.mem_restores hr
  | evicted use v reg k s₁ hlive hchoose huse hvictim hspill hk =>
      obtain ⟨back, place, rest, -, -, -, -, rfl⟩ := spill_cases hspill
      simp only [Notes.tree_place, restores_spillNotes]
      split
      · exact List.mem_append_left _ hr
      · exact hr

/-! ## The scan of a tree is a sequence of moves -/

theorem carrySpill_move {phase : Phase} {sp : Spill} (h : carrySpill g sp s = .ok () s')
    (hsp : sp ∈ (s.notes.tree t).spills) :
    Move g t phase s s' ∧ (s'.notes.tree t).spills = (s.notes.tree t).spills := by
  obtain ⟨reg, k, rest, hlive, -, hremove, hk, rfl⟩ := carrySpill_cases h
  exact ⟨.carrySpill sp reg k rest hsp hlive hremove hk, rfl⟩

theorem carrySpills_moves {sps : List Spill}
    (h : carrySpills g sps s = .ok () s') (hsps : ∀ sp ∈ sps, sp ∈ (s.notes.tree t).spills) :
    Moves g t .preparing [] s s' := by
  induction sps generalizing s with
  | nil =>
      obtain ⟨-, rfl⟩ := pure_cases h
      exact .nil s'
  | cons sp sps ih =>
      obtain ⟨⟨⟩, s₁, hfirst, hrest⟩ := exists_of_bind_apply_eq_ok h
      obtain ⟨hmove, hspills⟩ := carrySpill_move hfirst (hsps sp (by simp))
      refine .move hmove (ih hrest ?_)
      intro q hq
      rw [hspills]
      exact hsps q (by simp [hq])

theorem map_interval_modify (restores : List Restore) (k : Nat) (reg : Option Int) :
    (restores.modify k fun r => { r with reg }).map Restore.interval =
      restores.map Restore.interval := by
  apply List.ext_getElem?
  intro m
  rw [List.getElem?_map, List.getElem?_map, List.getElem?_modify]
  cases restores[m]? with
  | none => rfl
  | some r =>
      by_cases hkm : k = m
      · simp [hkm]
      · simp [hkm]

theorem noteRestored_move {phase : Phase} (s : Allocator) (k : Nat) (reg : Option Int) :
    Move g t phase s { s with notes := noteRestored s.notes t k reg } :=
  .annotate _ rfl rfl (map_interval_modify _ k reg) (Or.inl rfl)

theorem exists_restore_iff (restores : List Restore) (i : IntervalId) :
    (∃ r ∈ restores, r.interval = i) ↔ i ∈ restores.map Restore.interval := by
  simp

/-- A recorded restore is carried out, and what is recorded stays recorded. -/
theorem carryRestore_moves {k : Nat} {r : Restore} (h : carryRestore g t k r s = .ok () s')
    (hr : ∃ q ∈ (s.notes.tree t).restores, q.interval = r.interval) :
    Moves g t .preparing [(s, r.interval)] s s' ∧
      ∀ i, (∃ q ∈ (s.notes.tree t).restores, q.interval = i) →
        ∃ q ∈ (s'.notes.tree t).restores, q.interval = i := by
  obtain ⟨-, s₁, hactivated, rfl⟩ := carryRestore_cases h
  obtain ⟨q, hq, hqr⟩ := hr
  refine ⟨.activate (.recorded q hq hqr) hactivated (.single (noteRestored_move s₁ k _)), ?_⟩
  rintro i ⟨q', hq', hqi⟩
  rw [exists_restore_iff]
  simp only [noteRestored, Notes.tree_modifyTree, if_true, map_interval_modify]
  exact List.mem_map.mpr ⟨q', hactivated.mem_restores hq', hqi⟩

theorem carryRestores_moves {k : Nat} {rs : List Restore}
    (h : carryRestores g t k rs s = .ok () s')
    (hrs : ∀ r ∈ rs, ∃ q ∈ (s.notes.tree t).restores, q.interval = r.interval) :
    Moves g t .preparing (restoreRequests g t k rs s) s s' := by
  induction rs generalizing s k with
  | nil =>
      obtain ⟨-, rfl⟩ := pure_cases h
      exact .nil s'
  | cons r rs ih =>
      obtain ⟨⟨⟩, s₁, hfirst, hrest⟩ := exists_of_bind_apply_eq_ok h
      obtain ⟨hmoves, hkeep⟩ := carryRestore_moves hfirst (hrs r (by simp))
      simp only [restoreRequests, hfirst]
      exact hmoves.append (ih hrest fun r' hr' => hkeep _ (hrs r' (by simp [hr'])))

theorem release_move {phase : Phase} (h : release t s = .ok () s') : Move g t phase s s' := by
  obtain ⟨kept, s₁, hsifted, rfl⟩ := release_cases h
  exact .release hsifted

theorem prepare_moves (h : prepare g t s = .ok () s') :
    Moves g t .preparing (recordedRequests g t s) s s' := by
  obtain ⟨s₁, s₂, s₃, hrelease, hspills, hrestores, hend⟩ := prepare_cases h
  have hrecorded : recordedRequests g t s =
      restoreRequests g t 0 (s₂.notes.tree t).restores s₂ := by
    rw [recordedRequests, bind_apply_of_ok hrelease, bind_apply_of_ok (get_apply s₁), hspills]
  have hmoves : Moves g t .preparing (recordedRequests g t s) s s₃ := by
    rw [hrecorded]
    refine .move (.turn s s.tree false) (.move (release_move hrelease) ?_)
    exact (carrySpills_moves hspills fun sp hsp => hsp).append
      (carryRestores_moves hrestores fun r hr => ⟨r, hr, rfl⟩)
  have hturn : Moves g t .preparing [] s₃ { s₃ with reuse := s.reuse } :=
    .single (.turn s₃ s₃.tree s.reuse)
  have hlast : Moves g t .preparing [] { s₃ with reuse := s.reuse } s' := by
    split at hend
    · exact .single (release_move hend)
    · rw [hend]
      exact .nil _
  simpa using hmoves.append (hturn.append hlast)

theorem withReg_moves (s : Allocator) (i : IntervalId) :
    Moves g t .placing [] s { s with notes := withReg s.notes t i } := by
  cases hlive : (s.notes.interval i).liveIn with
  | none =>
      simp only [withReg, hlive]
      exact .nil s
  | some reg =>
      simp only [withReg, hlive]
      exact .single (.annotate _ rfl rfl rfl (Or.inr ⟨i, hlive⟩))

theorem scanLoad_moves (hkind : t.kind = .ldLocal) (h : scanLoad g t s = .ok () s') :
    Moves g t .placing (placeRequests g t s) s s' := by
  obtain ⟨i, s₁, hslot, hactivated, rfl⟩ := scanLoad_cases h
  simp only [placeRequests, hkind, hslot]
  exact .activate (.load hkind hslot) hactivated (withReg_moves s₁ i)

theorem scanStore_moves (hg : g.twins = {}) (hkind : t.kind = .stLocal)
    (h : scanStore g t s = .ok () s') :
    Moves g t .placing (placeRequests g t s) s s' := by
  obtain ⟨i, value, rest, s₁, hslot, hvalue, hsettle, rfl⟩ := scanStore_cases h
  simp only [placeRequests, hkind, Graph.sharers_of_twins_eq_empty hg, List.foldl_cons,
    List.foldl_nil]
  have hstored : Moves g t .placing [] s₁
      { s₁ with notes := s₁.notes.addStored t (s.notes.reg value) } :=
    .single (.annotate _ rfl rfl rfl (Or.inl rfl))
  split at hsettle
  · rw [hsettle] at hstored ⊢
    exact hstored
  · next hlive => exact .move (.settle i value rest hkind hslot hvalue hlive hsettle) hstored

section Temp

variable {p : Tree} (hload : t.kind ≠ .ldLocal) (hstore : t.kind ≠ .stLocal)
include hload hstore

theorem place_of_parent (hparent : g.parent t = some p) : place g t = scanTemp g t p := by
  rw [place]
  split
  · contradiction
  · contradiction
  · rw [hparent]

theorem place_of_root (hroot : g.parent t = none) : place g t = pure () := by
  rw [place]
  split
  · contradiction
  · contradiction
  · rw [hroot]

theorem placeRequests_of_parent (hparent : g.parent t = some p) : placeRequests g t s =
    [({ s with notes := s.notes.addInterval (tempOf s.notes t p) }, s.notes.intervalCount)] := by
  rw [placeRequests]
  split
  · contradiction
  · contradiction
  · rw [hparent]

theorem placeRequests_of_root (hroot : g.parent t = none) : placeRequests g t s = [] := by
  rw [placeRequests]
  split
  · contradiction
  · contradiction
  · rw [hroot]

end Temp

theorem scanTemp_moves {p : Tree} (hload : t.kind ≠ .ldLocal) (hstore : t.kind ≠ .stLocal)
    (hparent : g.parent t = some p) (h : scanTemp g t p s = .ok () s') :
    Moves g t .placing (placeRequests g t s) s s' := by
  obtain ⟨s₁, hactivated, rfl⟩ := scanTemp_cases h
  rw [placeRequests_of_parent hload hstore hparent]
  refine .move (.create p hparent hload hstore) (.activate (.result ?_ ?_) hactivated
    (withReg_moves s₁ _))
  · exact Nat.lt_succ_self _
  · simp [Allocator.interval, Notes.interval_addInterval, tempOf]

theorem place_cases (h : place g t s = .ok () s') :
    (t.kind = .ldLocal ∧ scanLoad g t s = .ok () s') ∨
      (t.kind = .stLocal ∧ scanStore g t s = .ok () s') ∨
      (t.kind ≠ .ldLocal ∧ t.kind ≠ .stLocal ∧
        ((∃ p, g.parent t = some p ∧ scanTemp g t p s = .ok () s') ∨
          g.parent t = none ∧ s' = s)) := by
  by_cases hload : t.kind = .ldLocal
  · simp only [place, hload] at h
    exact Or.inl ⟨hload, h⟩
  · by_cases hstore : t.kind = .stLocal
    · simp only [place, hstore] at h
      exact Or.inr (Or.inl ⟨hstore, h⟩)
    · refine Or.inr (Or.inr ⟨hload, hstore, ?_⟩)
      cases hparent : g.parent t with
      | none =>
          rw [place_of_root hload hstore hparent] at h
          exact Or.inr ⟨rfl, (pure_cases h).2⟩
      | some p =>
          rw [place_of_parent hload hstore hparent] at h
          exact Or.inl ⟨p, rfl, h⟩

theorem place_moves (hg : g.twins = {}) (h : place g t s = .ok () s') :
    Moves g t .placing (placeRequests g t s) s s' := by
  rcases place_cases h with ⟨hkind, h⟩ | ⟨hkind, h⟩ |
      ⟨hload, hstore, ⟨p, hparent, h⟩ | ⟨hparent, rfl⟩⟩
  · exact scanLoad_moves hkind h
  · exact scanStore_moves hg hkind h
  · exact scanTemp_moves hload hstore hparent h
  · have hrequests : placeRequests g t s' = [] := by
      cases hkind : t.kind <;> simp_all [placeRequests]
    rw [hrequests]
    exact .nil s'

/-- The scan of a tree is a sequence of moves, with activations for its requests. -/
theorem scanTree_moves (hg : g.twins = {}) (h : scanTree g t s = .ok () s') :
    Moves g t .placing (requests g t s) s s' := by
  obtain ⟨s₁, hprepare, hplace⟩ := scanTree_cases h
  have hrequests : requests g t s =
      recordedRequests g t { s with tree := some t } ++ placeRequests g t s₁ := by
    simp only [requests, hprepare]
  rw [hrequests]
  exact .move (.turn s (some t) s.reuse)
    ((prepare_moves hprepare).placing.append (place_moves hg hplace))

end Alloc
end LinearScan
