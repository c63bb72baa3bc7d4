import LinearScan.Proofs.Crowding

/-!
# Steps that return

A step of the allocator fails where it reads a register that there is not, removes an interval that
is not listed, or finds no register to choose.  For each of the operations this module states what
the state must offer for it to return: the active intervals are in registers of the file, the
interval that goes is active, and where a register is needed one is free or can be given up.  The
survey and the edges between blocks return under conditions on the graph alone.
-/

namespace LinearScan

open Allocator

namespace Alloc

variable {α β : Type} {g : Graph} {pending past future : List Tree} {t y u p : Tree}
  {b : BlockId} {s s₁ s' : Allocator} {i j : Nat} {r : Int} {a : α} {x : Alloc α}
  {f : α → Alloc β}

/-! ## Returning -/

/-- From the state `s`, the step returns. -/
def Returns (x : Alloc α) (s : Allocator) : Prop :=
  ∃ a s', x s = .ok a s'

theorem returns_pure (a : α) (s : Allocator) : Returns (pure a) s :=
  ⟨a, s, rfl⟩

theorem Returns.bind (hx : Returns x s) (hf : ∀ a s₁, x s = .ok a s₁ → Returns (f a) s₁) :
    Returns (x >>= f) s := by
  obtain ⟨a, s₁, hx⟩ := hx
  obtain ⟨b, s', hrest⟩ := hf a s₁ hx
  exact ⟨b, s', (bind_apply_of_ok hx).trans hrest⟩

theorem returns_bind_of_ok (h : x s = .ok a s₁) : Returns (x >>= f) s ↔ Returns (f a) s₁ := by
  simp only [Returns, bind_apply_of_ok h]

theorem exists_resolve {size : Nat} (hr : 0 ≤ r ∧ r < size) :
    ∃ k, Position.resolve size r = .ok k := by
  obtain ⟨k, rfl⟩ := Int.eq_ofNat_of_zero_le hr.1
  exact ⟨k, Position.resolve_natCast (by omega)⟩

theorem returns_occupy (hr : 0 ≤ r ∧ r < s.registers.length) (content : Option IntervalId) :
    Returns (occupy (some r) content) s := by
  obtain ⟨k, hk⟩ := exists_resolve hr
  have hk' : Position.resolve? s.registers.length (some r) = .ok k := hk
  refine ⟨(), { s with registers := s.registers.set k content }, ?_⟩
  rw [occupy_apply, hk']

/-! ## Releasing registers -/

theorem returns_vacate {k : Nat}
    (hk : Position.resolve? s.registers.length (s.interval i).liveIn = .ok k) :
    Returns (vacate i) s := by
  rw [vacate, returns_bind_of_ok (interval_apply i s)]
  have hoccupy : occupy (s.interval i).liveIn none s =
      .ok () { s with registers := s.registers.set k none } := by
    rw [occupy_apply, hk]
  rw [returns_bind_of_ok hoccupy]
  exact ⟨(), _, setLiveIn_apply i none _⟩

/-- Each of the intervals is in a register that there is. -/
def Housed (is : List IntervalId) (s : Allocator) : Prop :=
  ∀ i ∈ is, ∃ r, (s.interval i).liveIn = some r ∧ 0 ≤ r ∧ r < s.registers.length

theorem Orderly.housed (hs : s.Orderly g) : Housed s.active s := by
  intro i hi
  obtain ⟨r, hlive⟩ := hs.active_live i hi
  exact ⟨r, hlive, hs.live_range i r hlive⟩

theorem Housed.vacate {is : List IntervalId} (h : Housed (i :: is) s) (hnodup : (i :: is).Nodup)
    (k : Nat) :
    Housed is { s with registers := s.registers.set k none, notes := s.notes.place i none } := by
  intro j hj
  obtain ⟨r, hlive, hr⟩ := h j (List.mem_cons_of_mem i hj)
  have hij : i ≠ j := by
    rintro rfl
    exact (List.nodup_cons.mp hnodup).1 hj
  refine ⟨r, ?_, by simpa using hr⟩
  exact (Notes.liveIn_place_of_ne s.notes i j none hij).trans hlive

theorem returns_releaseEach {pos : Nat} {is : List IntervalId} (hnodup : is.Nodup)
    (h : ∀ i ∈ is, ∃ k, Position.resolve? s.registers.length (s.interval i).liveIn = .ok k) :
    Returns (releaseEach pos is) s := by
  induction is generalizing s with
  | nil => exact returns_pure _ _
  | cons i is ih =>
      obtain ⟨hi, htail⟩ := List.nodup_cons.mp hnodup
      rw [releaseEach, returns_bind_of_ok (get_apply s)]
      cases hexpired : s.expired pos i with
      | true =>
          obtain ⟨k, hk⟩ := h i (List.mem_cons_self ..)
          simp only [if_true]
          refine (returns_vacate hk).bind ?_
          intro _ s₁ hvacate
          obtain ⟨k, -, rfl⟩ := vacate_cases hvacate
          refine ih htail ?_
          intro j hj
          have hij : i ≠ j := by
            rintro rfl
            exact hi hj
          rw [List.length_set, Allocator.interval, Notes.liveIn_place_of_ne s.notes i j none hij]
          exact h j (List.mem_cons_of_mem i hj)
      | false =>
          simp only [Bool.false_eq_true, if_false]
          refine (ih htail ?_).bind fun kept s₁ _ => returns_pure _ _
          exact fun j hj => h j (List.mem_cons_of_mem i hj)

theorem returns_release_of_resolve (hnodup : s.active.Nodup)
    (h : ∀ i ∈ s.active, ∃ k,
      Position.resolve? s.registers.length (s.interval i).liveIn = .ok k) :
    Returns (release t) s := by
  rw [release, returns_bind_of_ok (get_apply s)]
  exact (returns_releaseEach hnodup h).bind fun kept s₁ _ => ⟨⟨⟩, _, modify_apply _ s₁⟩

theorem returns_release (hs : s.Orderly g) : Returns (release t) s := by
  refine returns_release_of_resolve hs.active_nodup ?_
  intro i hi
  obtain ⟨r, hlive, hr⟩ := Orderly.housed hs i hi
  rw [hlive]
  exact exists_resolve hr

theorem returns_dropTemps {is : List IntervalId} (hnodup : is.Nodup) (h : Housed is s) :
    Returns (dropTemps is) s := by
  induction is generalizing s with
  | nil => exact returns_pure _ _
  | cons i is ih =>
      have htail := (List.nodup_cons.mp hnodup).2
      rw [dropTemps, returns_bind_of_ok (interval_apply i s)]
      cases htemp : (s.interval i).owner.isTemp with
      | true =>
          obtain ⟨r, hlive, hr⟩ := h i (List.mem_cons_self ..)
          simp only [if_true, hlive]
          refine (returns_occupy hr none).bind ?_
          intro _ s₁ hoccupy
          obtain ⟨k, -, rfl⟩ := occupy_cases hoccupy
          rw [returns_bind_of_ok (setLiveIn_apply i none _)]
          exact ih htail (h.vacate hnodup k)
      | false =>
          simp only [Bool.false_eq_true, if_false]
          refine (ih htail ?_).bind fun kept s₁ _ => returns_pure _ _
          exact fun j hj => h j (List.mem_cons_of_mem i hj)

theorem returns_depart (hs : s.Orderly g) : Returns (depart b) s := by
  rw [depart, returns_bind_of_ok (get_apply s)]
  exact (returns_dropTemps hs.active_nodup (Orderly.housed hs)).bind
    fun kept s₁ _ => ⟨⟨⟩, _, modify_apply _ s₁⟩

/-! ## Spilling and activating -/

/-- A variable is told apart from every other interval. -/
theorem alike_slot (hs : s.Owned g) {n : Notes}
    (howner : ∀ k, (n.interval k).owner = (s.interval k).owner) (hi : i < s.slots.length)
    (hj : j < s.notes.intervalCount) (hij : j ≠ i) :
    alike g n (.interval j) (.interval i) = .ok false := by
  have hslot := hs.owner_slot i hi
  apply alike_of_slot
  · intro heq
    rw [howner, howner, hslot] at heq
    exact hij (hs.identified.slot_inj hj (Nat.lt_of_lt_of_le hi hs.slots_le) heq hslot)
  · right
    rw [howner, hslot]
    rfl

theorem returns_dropActive (hi : i ∈ s.active)
    (hothers : ∀ j ∈ s.active, j ≠ i → alike g s.notes (.interval j) (.interval i) = .ok false) :
    Returns (dropActive g i) s := by
  refine ⟨(), { s with active := s.active.erase i }, ?_⟩
  rw [dropActive_apply, removeAlike_of_mem hi hothers]

/-- An active variable can be spilled. -/
theorem returns_spill (hs : s.Orderly g) (hi : i ∈ s.active) (hslot : i < s.slots.length) :
    Returns (spill g t i) s := by
  obtain ⟨r, hlive, hr⟩ := Orderly.housed hs i hi
  have hrecord : recordSpill t ⟨some r, i⟩ s =
      .ok () { s with notes := s.notes.addSpill t ⟨some r, i⟩ } := rfl
  rw [spill, returns_bind_of_ok (get_apply s)]
  simp only [hlive, hs.owner_slot i hslot, Owner.isTemp, Bool.false_eq_true, if_false]
  rw [returns_bind_of_ok hrecord, returns_bind_of_ok (setLiveIn_apply i none _)]
  refine Returns.bind (returns_dropActive ?_ ?_) ?_
  · exact hi
  · intro j hj hji
    refine alike_slot hs.toOwned ?_ hslot (hs.active_lt j hj) hji
    exact fun k => Notes.owner_place _ i k none
  · intro _ s₁ hdrop
    obtain ⟨rest, -, rfl⟩ := dropActive_cases hdrop
    refine Returns.bind (returns_occupy ?_ none) fun _ _ _ => returns_pure _ _
    exact hr

theorem returns_recordReload {number : Nat}
    (h : (s.interval i).owner.isResultOf t = true ∨ (s.notes.tree t).restores = []) :
    Returns (recordReload g t i number) s := by
  rw [recordReload, returns_bind_of_ok (get_apply s)]
  cases hresult : (s.interval i).owner.isResultOf t with
  | true => exact returns_pure _ _
  | false =>
      have hnil := h.resolve_left (by simp [hresult])
      have hnone : ofExcept (restoresAlike g s.notes i (s.notes.tree t).restores) s =
          .ok false s := by
        rw [hnil]
        rfl
      simp only [Bool.not_false, if_true]
      rw [returns_bind_of_ok hnone]
      exact ⟨(), _, rfl⟩

/-- An empty register can be chosen for an interval that has a next use. -/
theorem exists_choose {pos : Nat} (huse : s.notes.nextUse i pos = some u) :
    ∃ choice, s.choose pos i = .ok choice := by
  rw [choose]
  split
  · exact ⟨_, rfl⟩
  · exact ⟨_, rfl⟩
  · rw [huse]
    exact ⟨_, rfl⟩

/-- If there is an empty register, it can be taken. -/
theorem returns_tryActivate {number filled : Nat}
    (hchoose : s.choose (s.notes.index t) i = .ok (some (number, filled)))
    (hreload : (s.interval i).owner.isResultOf t = true ∨ (s.notes.tree t).restores = []) :
    Returns (tryActivate g t i) s := by
  have hlt := lt_of_mem_freeRegisters (mem_of_choose hchoose).2
  rw [tryActivate, returns_bind_of_ok (get_apply s), hchoose]
  refine (returns_bind_of_ok (a := some (number, filled)) rfl).mpr ?_
  apply (returns_recordReload hreload).bind
  intro _ s₁ hrecord
  obtain ⟨n, -, rfl⟩ := recordReload_cases hrecord
  rw [returns_bind_of_ok (setLiveIn_apply i _ _)]
  refine (returns_occupy ?_ _).bind ?_
  · simpa using hlt
  · intro _ s₂ _
    rw [returns_bind_of_ok (pushActive_apply i s₂)]
    exact returns_pure _ _

/-- If an interval can be spilled, another one can take its place. -/
theorem returns_evictFor (hs : s.Orderly g) (hslots : ∀ j ∈ s.active, j < s.slots.length)
    (huse : s.notes.nextUse i (s.notes.index t) = some u)
    (hvictim : s.victim (s.notes.index t) (s.notes.index u) none s.active ≠ none) :
    Returns (evictFor g t i) s := by
  rw [evictFor, returns_bind_of_ok (get_apply s)]
  simp only [huse]
  obtain ⟨v, hv⟩ := Option.ne_none_iff_exists'.mp hvictim
  have hactive := mem_active_of_victim hv
  simp only [hv]
  apply (returns_spill hs hactive (hslots v hactive)).bind
  intro reg s₁ hspill
  obtain ⟨-, -, hs₁, hreg⟩ := spill_active hs (hs.active_lt v hactive) hspill
  rw [returns_bind_of_ok (setLiveIn_apply i _ _)]
  refine (returns_occupy ?_ _).bind fun _ _ _ => ⟨(), _, pushActive_apply _ _⟩
  simp only [(extends_spill hspill).size_eq]
  exact hreg

/-- An interval that is used again can be activated if there is an empty register, and it need not
be looked for among restores. -/
theorem returns_activate_of_free (hfree : s.freeRegisters ≠ [])
    (huse : s.notes.nextUse i (s.notes.index t) = some u)
    (hreload : (s.interval i).owner.isResultOf t = true ∨ (s.notes.tree t).restores = []) :
    Returns (activate g t i) s := by
  rw [activate, returns_bind_of_ok (interval_apply i s)]
  cases hlive : (s.interval i).liveIn with
  | some reg => exact returns_pure _ _
  | none =>
      simp only [Option.isNone_none, if_true]
      obtain ⟨choice, hchoose⟩ := exists_choose huse
      cases choice with
      | none => exact absurd (choose_eq_none_iff.mp hchoose) hfree
      | some pair =>
          apply (returns_tryActivate hchoose hreload).bind
          intro done s₁ hdone
          rcases tryActivate_cases hdone with ⟨-, hnone, -⟩ | ⟨rfl, -⟩
          · rw [hchoose] at hnone
            cases hnone
          · exact returns_pure _ _

/-- An interval can be activated if it is used again, there is room for it, and it need not be
looked for among restores; all active intervals are variables. -/
theorem returns_activate (hs : s.Orderly g) (hslots : ∀ j ∈ s.active, j < s.slots.length)
    (huse : s.notes.nextUse i (s.notes.index t) = some u)
    (hroom : ¬ s.NoRoom (s.notes.index t) i)
    (hreload : (s.interval i).owner.isResultOf t = true ∨ (s.notes.tree t).restores = []) :
    Returns (activate g t i) s := by
  by_cases hfree : s.freeRegisters = []
  · rw [activate, returns_bind_of_ok (interval_apply i s)]
    cases hlive : (s.interval i).liveIn with
    | some reg => exact returns_pure _ _
    | none =>
        simp only [Option.isNone_none, if_true]
        have htry : tryActivate g t i s = .ok false s := by
          rw [tryActivate, bind_apply_of_ok (get_apply s), choose_eq_none_iff.mpr hfree]
          rfl
        rw [returns_bind_of_ok htry]
        simp only [Bool.not_false, if_true]
        apply returns_evictFor hs hslots huse
        intro hvictim
        rw [victim_eq_none_iff] at hvictim
        exact hroom ⟨hlive, hfree, u, huse, hvictim.2⟩
  · exact returns_activate_of_free hfree huse hreload

/-- An activation fills the register that it notes unless an operand of the next use was in
another empty one. -/
theorem not_slips {q : Allocator × IntervalId}
    (huse : q.1.notes.nextUse q.2 (q.1.notes.index t) = some u)
    (hregs : ∀ v ∈ u.subtrees, ∀ k ∈ q.1.freeRegisters, q.1.notes.reg v ≠ (k : Nat)) :
    ¬ Slips t q := by
  rintro ⟨-, number, filled, hchoose, hne⟩
  rw [choose] at hchoose
  split at hchoose
  · cases hchoose
  · injection hchoose with hchoose
    cases hchoose
    exact hne rfl
  · next first others _ hfree =>
      have hnone : others.find? (fun (k : Nat) =>
          u.subtrees.any fun v => q.1.notes.reg v == k) = none := by
        rw [List.find?_eq_none]
        intro k hk
        simpa using fun v hv => hregs v hv k (hfree ▸ List.mem_cons_of_mem _ hk)
      rw [huse] at hchoose
      simp only [preferred, hnone, Option.getD_none] at hchoose
      injection hchoose with hchoose
      cases hchoose
      exact hne rfl

/-! ## Placing -/

/-- In `s₁` the tree `y` has nothing to bring back and only has to get its register. -/
structure Prepared (g : Graph) (past : List Tree) (y : Tree) (s s₁ : Allocator) : Prop where
  scan_eq : scanTree g y s = place g y s₁
  requests_eq : requests g y s = placeRequests g y s₁
  continues : s.Continues s₁
  reuse_eq : s₁.reuse = s.reuse
  placing : Placing g past y s₁
  filed : Filed s₁.registers s₁.active s₁.notes
  tree_eq : ∀ x, s₁.notes.tree x = s.notes.tree x
  unmoved : ∀ j ∈ s₁.active, Unmoved j s s₁
  later : s.reuse = true → ∀ j ∈ s₁.active, ∀ u p, (s₁.interval j).owner = .temp u →
    g.parent u = some p → s₁.notes.index y < s₁.notes.index p
  operands : s.reuse = false → ∀ (j : Nat) u, j < s₁.notes.intervalCount →
    (s₁.interval j).owner = .temp u → g.parent u = some y → j ∈ s₁.active

theorem Prepared.reg_eq (h : Prepared g past y s s₁) (x : Tree) :
    s₁.notes.reg x = s.notes.reg x := by
  rw [Notes.reg, h.tree_eq]
  rfl

/-- If nothing has to be brought back, what is released before a tree gets its register is all
that happens. -/
theorem exists_prepared (hg : g.Formed pending) (htrees : g.treesFrom 0 = past ++ y :: future)
    (hrest : Rested g past s) (hfiled : Filed s.registers s.active s.notes)
    (hregs : ∀ u ∈ y.subtrees, 0 ≤ s.notes.reg u) (hnone : (s.notes.tree y).restores = []) :
    ∃ s₁, Prepared g past y s s₁ := by
  have hturned := hrest.orderly.turn (some y) false
  obtain ⟨⟨⟩, s₁, hrelease⟩ := returns_release (t := y) hturned
  have hserving := release_serving hg htrees hrest hregs hrelease
  obtain ⟨hfiled₁, hunmoved₁, htree₁⟩ := release_unmoved hturned hfiled hrelease
  have hnone₁ : (s₁.notes.tree y).restores = [] := by rw [htree₁]; exact hnone
  rw [hnone₁] at hserving
  have hserving' : Serving g past y [] [] s₁ := hserving
  have hturned₁ := hserving.orderly.turn s₁.tree s.reuse
  obtain ⟨s₂, hyield⟩ : ∃ s₂, (if s.reuse then release y else pure ())
      { s₁ with reuse := s.reuse } = .ok () s₂ := by
    split
    · obtain ⟨⟨⟩, s₂, hyield⟩ := returns_release (t := y) hturned₁
      exact ⟨s₂, hyield⟩
    · exact ⟨_, rfl⟩
  obtain ⟨hplacing, -⟩ := hserving'.placing_of_release hg htrees hyield
  have hmove : Move g y .preparing { s with tree := some y, reuse := false } s₁ :=
    release_move hrelease
  have hturn : s.Extends { s with tree := some y, reuse := false } := .of_notes_eq rfl rfl rfl rfl
  have htree : ∀ x, s₂.notes.tree x = s.notes.tree x := by
    intro x
    rw [tree_yield hyield]
    exact htree₁ x
  refine ⟨s₂, ?_, ?_, ((hturn.trans hmove.extends).trans (extends_yield hyield)).toContinues, ?_,
    hplacing, ?_, htree, ?_, ?_, ?_⟩
  · rw [scanTree_phases hrest htrees]
    simp only [hrelease, hnone₁, carryRestores, pure_apply, hyield]
  · rw [requests_phases hrest htrees]
    simp only [hrelease, hnone₁, carryRestores, restoreRequests, pure_apply, hyield,
      List.nil_append]
  · split at hyield
    · obtain ⟨kept, s₃, hsifted, rfl⟩ := release_cases hyield
      obtain ⟨registers, -, rfl⟩ := hsifted.state_eq
      rfl
    · obtain ⟨-, rfl⟩ := pure_cases hyield
      rfl
  · split at hyield
    · exact (release_unmoved hturned₁ hfiled₁ hyield).1
    · obtain ⟨-, rfl⟩ := pure_cases hyield
      exact hfiled₁
  · intro j hj
    split at hyield
    · have hsecond := (release_unmoved hturned₁ hfiled₁ hyield).2.1 j hj
      have hfirst := hunmoved₁ j hsecond.active
      refine ⟨hfirst.active, hsecond.liveIn_eq.trans hfirst.liveIn_eq,
        hsecond.owner_eq.trans hfirst.owner_eq, ?_⟩
      intro u howner
      rw [Notes.reg, htree]
      rfl
    · obtain ⟨-, rfl⟩ := pure_cases hyield
      obtain ⟨hactive, hlive, howner, hreg⟩ := hunmoved₁ j hj
      exact ⟨hactive, hlive, howner, hreg⟩
  · intro hreuse
    rw [hreuse] at hyield
    exact (hserving'.placing.turn true).later htrees rfl hyield
  · intro hreuse j u hj howner hparent
    rw [hreuse] at hyield
    obtain ⟨-, rfl⟩ := pure_cases hyield
    exact (hserving'.operands j u hj howner hparent).resolve_right (by simp)

section

variable (hs : s.Orderly g) (hfiled : Filed s.registers s.active s.notes)
  (hr : 0 ≤ r ∧ r < s.registers.length)
  (halone : ∀ i ∈ s.active, ∀ j ∈ s.active, s.slots.length ≤ i → s.slots.length ≤ j → i = j)
include hs hfiled hr halone

/-- The way can be cleared for a store if there is at most one active temporary. -/
theorem returns_clearFor : Returns (clearFor g t r) s := by
  obtain ⟨k, hk⟩ := exists_resolve hr
  have hoccupant : occupant (some r) s = .ok (s.registers[k]?).join s := by
    have hk' : Position.resolve? s.registers.length (some r) = .ok k := hk
    rw [occupant, bind_apply_of_ok (get_apply s), hk']
    rfl
  rw [clearFor, returns_bind_of_ok hoccupant]
  cases hcontent : (s.registers[k]?).join with
  | none => exact returns_pure _ _
  | some j =>
      obtain ⟨hj, -⟩ := (hfiled k j).mp (Option.join_eq_some_iff.mp hcontent)
      have hlt := hs.active_lt j hj
      dsimp only
      rw [returns_bind_of_ok (interval_apply j s)]
      cases htemp : (s.interval j).owner.isTemp with
      | true =>
          simp only [if_true]
          refine returns_dropActive hj ?_
          intro i hi hij
          have hslot : i < s.slots.length := by
            by_contra hge
            exact hij (halone i hi j hj (Nat.le_of_not_lt hge) ((hs.isTemp_iff hlt).mp htemp))
          have howner : (s.notes.interval i).owner = .slot i := hs.owner_slot i hslot
          apply alike_of_slot
          · intro heq
            have htemp' : (s.notes.interval j).owner.isTemp = true := htemp
            rw [← heq, howner] at htemp'
            cases htemp'
          · left
            rw [howner]
            rfl
      | false =>
          simp only [Bool.false_eq_true, if_false]
          have hslot : j < s.slots.length := by
            by_contra hge
            rw [(hs.isTemp_iff hlt).mpr (Nat.le_of_not_lt hge)] at htemp
            cases htemp
          exact (returns_spill hs hj hslot).bind fun _ _ _ => returns_pure _ _

theorem returns_settle : Returns (settle g t i r) s := by
  rw [settle]
  refine (returns_clearFor hs hfiled hr halone).bind ?_
  intro _ s₁ hclear
  have hs₁ := clearFor_orderly hs hclear
  rw [← (extends_clearFor hclear).size_eq] at hr
  have hseat : ∀ s₂ : Allocator, s₂.registers.length = s₁.registers.length →
      Returns (do setLiveIn i (some r); occupy (some r) (some i)) s₂ := by
    intro s₂ hsize
    rw [returns_bind_of_ok (setLiveIn_apply i _ _)]
    refine returns_occupy ?_ _
    rw [← hsize] at hr
    exact hr
  rw [returns_bind_of_ok (interval_apply i s₁)]
  cases hlive : (s₁.interval i).liveIn with
  | some old =>
      have hold := hs₁.live_range i old hlive
      dsimp only
      refine (returns_bind_of_ok (modify_apply _ s₁)).mpr ?_
      refine Returns.bind (returns_occupy ?_ none) ?_
      · exact hold
      · intro _ s₂ hoccupy
        obtain ⟨k, -, rfl⟩ := occupy_cases hoccupy
        exact hseat _ (List.length_set ..)
  | none =>
      dsimp only
      rw [returns_bind_of_ok (pushActive_apply i s₁)]
      exact hseat _ rfl

end

theorem returns_scanStore {value : Tree} {rest : List Tree} (hslot : s.slotOf t = .ok i)
    (hvalue : t.subtrees = value :: rest)
    (hsettle : Returns (settle g t i (s.notes.reg value)) s) : Returns (scanStore g t) s := by
  rw [scanStore, returns_bind_of_ok (get_apply s), hslot]
  refine (returns_bind_of_ok (a := i) rfl).mpr ?_
  simp only [hvalue]
  rw [returns_bind_of_ok (get_apply s), returns_bind_of_ok (interval_apply i s)]
  by_cases hlive : (s.interval i).liveIn = some (s.notes.reg value)
  · simp only [hlive, ne_eq, not_true_eq_false, if_false]
    exact ⟨_, _, rfl⟩
  · simp only [hlive, ne_eq, not_false_eq_true, if_true]
    exact hsettle.bind fun _ s₁ _ => ⟨_, _, rfl⟩

theorem returns_noteReg (hactivate : Returns (activate g t i) s) :
    Returns (do
      activate g t i
      match (← interval i).liveIn with
      | some reg => setReg t reg
      | none => pure ()) s := by
  refine hactivate.bind ?_
  intro _ s₁ _
  rw [returns_bind_of_ok (interval_apply i s₁)]
  cases (s₁.interval i).liveIn <;> exact ⟨_, _, rfl⟩

theorem returns_scanLoad (hslot : s.slotOf t = .ok i) (hactivate : Returns (activate g t i) s) :
    Returns (scanLoad g t) s := by
  rw [scanLoad, returns_bind_of_ok (get_apply s), hslot]
  refine (returns_bind_of_ok (a := i) rfl).mpr ?_
  exact returns_noteReg hactivate

theorem returns_scanTemp
    (hactivate : Returns (activate g t s.notes.intervalCount)
      { s with notes := s.notes.addInterval (tempOf s.notes t p) }) :
    Returns (scanTemp g t p) s := by
  rw [scanTemp, returns_bind_of_ok (get_apply s)]
  refine (returns_bind_of_ok (modify_apply _ s)).mpr ?_
  exact returns_noteReg hactivate

/-! ## The passes around the scan of the trees -/

theorem returns_createSlots (ir : Ir) (k count : Nat) (s : Allocator) :
    Returns (createSlots ir k count) s := by
  induction count generalizing k s with
  | zero => exact returns_pure _ _
  | succ count ih =>
      rw [createSlots, returns_bind_of_ok (modify_apply _ s)]
      exact ih (k + 1) _

theorem returns_surveyTrees {s₀ : Allocator} {ts : List Tree} (hs : s₀.Listed s)
    (hnamed : ∀ t ∈ ts, t.NamesVariable s.slots.length)
    (hparent : ∀ t ∈ ts, t.kind = .ldLocal → ∃ p, g.parent t = some p) :
    Returns (surveyTrees g ts) s := by
  induction ts generalizing s with
  | nil => exact returns_pure _ _
  | cons t ts ih =>
      have hslot : t.kind = .ldLocal ∨ t.kind = .stLocal → ∃ i, s.slotOf t = .ok i := by
        intro hkind
        obtain ⟨k, hk, hoperand⟩ := hnamed t (List.mem_cons_self ..) hkind
        exact ⟨k, slotOf_of_names hs.slots_eq hk hoperand⟩
      have hfirst : Returns (surveyTree g t) s := by
        cases hkind : t.kind with
        | stLocal =>
            obtain ⟨i, hi⟩ := hslot (Or.inr hkind)
            simp only [surveyTree, hkind]
            rw [returns_bind_of_ok (get_apply s), hi]
            exact ⟨_, _, rfl⟩
        | ldLocal =>
            obtain ⟨i, hi⟩ := hslot (Or.inl hkind)
            obtain ⟨p, hp⟩ := hparent t (List.mem_cons_self ..) hkind
            simp only [surveyTree, hkind]
            rw [returns_bind_of_ok (get_apply s), hi, hp]
            exact ⟨_, _, rfl⟩
        | _ =>
            simp only [surveyTree, hkind]
            exact returns_pure _ _
      refine hfirst.bind ?_
      intro _ s₁ hsurvey
      have hsurveyed := surveyTree_surveyed hs hsurvey
      refine ih hsurveyed.listed ?_ fun u hu => hparent u (List.mem_cons_of_mem t hu)
      rw [hsurveyed.slots_eq]
      exact fun u hu => hnamed u (List.mem_cons_of_mem t hu)

theorem returns_surveyBlocks {s₀ : Allocator} {ir : Ir} {bs : List BlockId} (hs : s₀.Listed s)
    (hnamed : ∀ t ∈ bs.flatMap g.treesOf, t.NamesVariable s.slots.length)
    (hparent : ∀ t ∈ bs.flatMap g.treesOf, t.kind = .ldLocal → ∃ p, g.parent t = some p) :
    Returns (surveyBlocks g ir bs) s := by
  induction bs generalizing s with
  | nil => exact returns_pure _ _
  | cons b bs ih =>
      simp only [List.flatMap_cons, List.mem_append] at hnamed hparent
      refine (returns_surveyTrees hs (fun t ht => hnamed t (Or.inl ht))
        fun t ht => hparent t (Or.inl ht)).bind ?_
      intro _ s₁ hsurvey
      have hsurveyed := surveyTrees_surveyed hs hsurvey
      have hextended := extendReads_surveyed hsurveyed.listed ir.count s₁.slots
      rw [returns_bind_of_ok (modify_apply _ s₁)]
      refine ih hextended.listed ?_ fun t ht => hparent t (Or.inr ht)
      rw [hextended.slots_eq, hsurveyed.slots_eq]
      exact fun t ht => hnamed t (Or.inr ht)

/-- The lives of variables that all exist can be found. -/
theorem returns_survey {ir : Ir} (hg : g.Formed pending) (hfirst : ir.first = 0)
    (hnamed : g.NamesVariables ir.locals.toNat) (hlive : ∀ i, (s.interval i).liveIn = none)
    (hcount : s.notes.intervalCount = 0) : Returns (survey g ir) s := by
  have htrees : (ir.blocks g).flatMap g.treesOf = g.treesFrom 0 := by
    rw [Ir.blocks, hfirst, Graph.treesFrom]
  rw [survey, returns_bind_of_ok (modify_apply _ s)]
  refine (returns_createSlots ir 0 _ _).bind ?_
  intro _ s₁ hcreate
  have hstart : s.Listed { s with slots := [] } :=
    ⟨rfl, hcount, by simp, hlive, rfl, rfl, rfl, rfl, rfl, rfl⟩
  obtain ⟨hlisted, hlength, -⟩ := createSlots_listed hstart rfl (by simp) hcreate
  have hlocals : s₁.slots.length = ir.locals.toNat := hlength.trans (Nat.zero_add _)
  refine returns_surveyBlocks hlisted ?_ ?_
  · rw [htrees, hlocals]
    exact hnamed
  · intro t ht hkind
    obtain ⟨b, -, hb⟩ := List.mem_flatMap.mp ht
    obtain ⟨p, -, -, hparent⟩ := hg.exists_parent hb (by rw [hkind]; rfl)
    exact ⟨p, hparent⟩

theorem returns_enter (h : (s.notes.block b).predecessors = []) : Returns (enter b) s := by
  rw [enter, returns_bind_of_ok (modify_apply _ s), returns_bind_of_ok (clear_apply _),
    returns_bind_of_ok (get_apply _)]
  have hnone : ((cleared { s with block := some b }).notes.block b).predecessors = [] := by
    rw [(cleared_continues s b).predecessors_eq, h]
  simp only [hnone]
  exact returns_pure _ _

/-- Where no edge leaves a block, none has to be resolved. -/
theorem resolveEdges_eq_self {bs : List BlockId}
    (h : ∀ b ∈ bs, ∃ t, g.terminator b = .ok t ∧ s.notes.operands t = []) :
    resolveEdges g bs s = .ok () s := by
  induction bs with
  | nil => rfl
  | cons b bs ih =>
      obtain ⟨t, hterminator, hoperands⟩ := h b (List.mem_cons_self ..)
      have hexit : Ir.eachExit g s.notes b (resolveEdge g b) s = .ok () s := by
        simp only [Ir.eachExit, hterminator, hoperands]
        rfl
      rw [resolveEdges, bind_apply_of_ok (get_apply s), bind_apply_of_ok hexit]
      exact ih fun c hc => h c (List.mem_cons_of_mem b hc)

end Alloc
end LinearScan
