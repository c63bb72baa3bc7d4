import LinearScan.Proofs.Temporaries
import LinearScan.Proofs.EntrySets
import LinearScan.Proofs.Trace

/-!
# The scan keeps its temporaries

Step by step: while a tree is prepared, its operands are brought back one after the other,
and no interval is spilled for them that is itself an operand.  So the checks that are made
when recorded spills and restores are carried out never fail, and when all restores are
done every operand is active.  What is spilled for the result of the tree is used later
than the tree.  At a store no temporary waits but the operands of the store.
-/

namespace LinearScan
namespace Alloc

open Allocator

/-! ## The two parts of the scan of a tree -/

/-- The first part of the scan of a tree: registers are released, where operands count as
needed, and what is recorded at the tree is carried out. -/
def recover (g : Graph) (t : Tree) : Alloc Unit := do
  modify fun s => { s with tree := some t, reuse := false }
  release t
  carrySpills g ((← get).notes.tree t).spills
  carryRestores g t 0 ((← get).notes.tree t).restores

/-- The second part of the scan of a tree: registers are released, where operands may count
as no longer needed, and the tree gets the register it needs. -/
def finish (g : Graph) (t : Tree) (reuse : Bool) : Alloc Unit := do
  modify fun s => { s with reuse }
  (if reuse then release t else pure ())
  place g t

variable {g : Graph} {pending past seen future : List Tree} {t y u p : Tree}
  {back todo : List IntervalId} {s s₁ s' : Allocator} {i j : Nat}

theorem scanTree_eq (g : Graph) (t : Tree) (s : Allocator) :
    scanTree g t s = (recover g t >>= fun _ => finish g t s.reuse) s := by
  simp only [scanTree, prepare, recover, finish, bind_assoc]
  rfl

/-! ## One temporary -/

/-- A temporary is used by the one tree that takes it. -/
theorem temp_spec (hs : s.Owned g) (hi : i < s.notes.intervalCount)
    (howner : (s.interval i).owner = .temp u) :
    ∃ p, g.parent u = some p ∧ (s.interval i).uses = [p] ∧
      (s.interval i).lastRead = s.notes.index p := by
  have hle : s.slots.length ≤ i := by
    refine (hs.isTemp_iff hi).mp ?_
    rw [howner]
    rfl
  obtain ⟨u', p, howner', hparent, huses, hlast⟩ := hs.owner_temp i hle hi
  rw [howner] at howner'
  injection howner' with heq
  exact ⟨p, heq ▸ hparent, huses, hlast⟩

theorem nextUse_temp (hs : s.Owned g) (hi : i < s.notes.intervalCount)
    (howner : (s.interval i).owner = .temp u) (hparent : g.parent u = some p) {pos : Nat}
    (hpos : pos ≤ s.notes.index p) : s.notes.nextUse i pos = some p := by
  obtain ⟨q, hq, huses, -⟩ := temp_spec hs hi howner
  rw [hparent] at hq
  injection hq with hq
  subst hq
  have huses' : (s.notes.interval i).uses = [p] := huses
  simp [Notes.nextUse, huses', hpos]

/-- A temporary is over when its value has been taken, and with operands that may be reused
when it is being taken. -/
theorem expired_temp (hs : s.Owned g) {born : List Tree} (htemps : s.Temporaries g born)
    (hi : i < s.notes.intervalCount) (howner : (s.interval i).owner = .temp u)
    (hparent : g.parent u = some p) {pos : Nat} (hu : s.notes.index u < pos) :
    s.expired pos i = true ↔
      s.notes.index p < pos ∨ s.reuse = true ∧ s.notes.index p = pos := by
  obtain ⟨q, hq, -, hlast⟩ := temp_spec hs hi howner
  rw [hparent] at hq
  injection hq with hq
  subst hq
  have hwrites : (s.notes.interval i).writes = [u] := htemps.writes_eq i u hi howner
  have hwrite : s.notes.nextWrite i pos = none := by
    simp [Notes.nextWrite, hwrites, hu]
  simp only [Allocator.expired, hwrite, hlast]
  split
  · next hnone => cases hnone
  · simp only [Bool.or_false, Bool.or_eq_true, Bool.and_eq_true, decide_eq_true_eq, beq_iff_eq,
      Int.ofNat_lt, Int.natCast_inj]

/-- A temporary that is active and used at `t` or later stays when another interval comes
into a register, or it is used later than `t` and is spilled. -/
theorem Activated.fate_temp (hs : s.Orderly g) (h : Activated g t i s s') (hij : i ≠ j)
    (hj : j < s.notes.intervalCount) (howner : (s.interval j).owner = .temp u)
    (hparent : g.parent u = some p)
    (hcurrent : j ∈ s.active → s.notes.index t ≤ s.notes.index p) :
    Stayed j s s' ∨ Evicted t j s s' ∧ s.notes.index t < s.notes.index p ∧
      s.notes.nextUse j (s.notes.index t) = some p := by
  rcases h.fate hs hij with hstayed | ⟨hevicted, hlater⟩
  · exact Or.inl hstayed
  · right
    have huse := nextUse_temp hs.toOwned hj howner hparent (hcurrent hevicted.active)
    rw [huse] at hlater
    rcases hlater with hnone | ⟨use, hsome, hlt⟩
    · cases hnone
    · injection hsome with hsome
      subst hsome
      exact ⟨hevicted, hlt, huse⟩

/-! ## Between trees -/

/-- In `s` the trees `past` have been scanned. -/
structure Rested (g : Graph) (past : List Tree) (s : Allocator) : Prop where
  orderly : s.Orderly g
  sorted : s.notes.Sorted g
  temps : s.Temporaries g past
  kept : s.Kept g past past []
  ahead : s.Ahead g past

/-- In `s` the tree `y` is prepared: of its operands, `back` have been brought back and
`todo` are still to come. -/
structure Serving (g : Graph) (past : List Tree) (y : Tree) (back todo : List IntervalId)
    (s : Allocator) : Prop where
  orderly : s.Orderly g
  sorted : s.notes.Sorted g
  temps : s.Temporaries g past
  kept : s.Kept g past (past ++ [y]) back
  subtrees_reg : ∀ u ∈ y.subtrees, 0 ≤ s.notes.reg u
  current : ∀ i ∈ s.active, ∀ u p, (s.interval i).owner = .temp u → g.parent u = some p →
    s.notes.index y ≤ s.notes.index p
  back_parent : ∀ i ∈ back, ∀ u p, (s.interval i).owner = .temp u → g.parent u = some p → p = y
  operands : ∀ (i : Nat) u, i < s.notes.intervalCount → (s.interval i).owner = .temp u →
    g.parent u = some y → i ∈ s.active ∨ i ∈ todo
  todo_nodup : todo.Nodup
  noted : ∀ i ∈ todo, i ∉ back ∧ s.slots.length ≤ i ∧
    ∃ r ∈ (s.notes.tree y).restores, r.interval = i

theorem Kept.mono {seen' : List Tree} (h : s.Kept g past seen back) (hseen : seen ⊆ seen') :
    s.Kept g past seen' back := by
  intro i u p hi howner hparent
  obtain ⟨out, hdetour, hout, hplace⟩ := h i u p hi howner hparent
  exact ⟨out, hdetour, fun x hx => ⟨hseen (hout x hx).1, (hout x hx).2⟩, hplace⟩

/-- A temporary that is to be restored at a tree is taken there. -/
theorem Kept.of_restore (hkept : s.Kept g past seen back) (hg : g.Formed pending)
    (hs : s.Orderly g) (hsorted : s.notes.Sorted g) (htemps : s.Temporaries g past)
    (htrees : g.treesFrom 0 = past ++ y :: future) (hi : s.slots.length ≤ i) {r : Restore}
    (hr : r ∈ (s.notes.tree y).restores) (hri : r.interval = i) :
    ∃ u out, (s.interval i).owner = .temp u ∧ g.parent u = some y ∧ out ≠ none ∧
      s.notes.Detour i y out := by
  have hlt : i < s.notes.intervalCount := hri ▸ hs.restore_lt y r hr
  obtain ⟨u, p, howner, hparent, -, -⟩ := hs.owner_temp i hi hlt
  obtain ⟨out, hdetour, -, -⟩ := hkept i u p hlt howner hparent
  have hpos : 0 < s.notes.restoreCount i y := Notes.restoreCount_pos_iff.mpr ⟨r, hr, hri⟩
  cases out with
  | none =>
      rw [(hdetour y).2] at hpos
      cases hpos
  | some x =>
      have hid : p.id = y.id := by
        by_contra hne
        rw [(hdetour y).2, if_neg hne] at hpos
        cases hpos
      have hu : u ∈ g.treesFrom 0 := by
        rw [htrees]
        exact List.mem_append_left _ (htemps.owner_mem i u hlt howner)
      obtain ⟨hp, -, -⟩ := hsorted.parent_spec hg hu hparent
      have hindex : s.notes.index p = s.notes.index y := by
        rw [Notes.index, Notes.index, Notes.tree, Notes.tree, hid]
      obtain rfl := hsorted.eq_of_index_eq htrees hp hindex
      exact ⟨u, some x, howner, hparent, by simp, hdetour⟩

/-! ## Releasing -/

theorem Sifted.stayed {drop : IntervalId → Bool} {kept : List IntervalId}
    (h : Sifted drop s.active s kept s₁) (hj : j ∈ s.active → drop j = false) :
    Stayed j s { s₁ with active := kept } := by
  have hmarks := h.sameMarks j
  have hkept := h.kept_eq
  obtain ⟨registers, -, rfl⟩ := h.state_eq
  refine ⟨?_, ?_, hmarks⟩
  · simp only [hkept, List.mem_filter]
    exact ⟨And.left, fun hactive => ⟨hactive, by simp [hj hactive]⟩⟩
  · simp only [Allocator.interval, Notes.liveIn_evacuate]
    refine if_neg ?_
    intro hmem
    obtain ⟨hactive, hdrop⟩ := List.mem_filter.mp hmem
    rw [hj hactive] at hdrop
    cases hdrop

/-- Releasing registers does not touch the temporaries whose values are still to be
taken. -/
theorem Sifted.kept {drop : IntervalId → Bool} {kept : List IntervalId}
    (h : Sifted drop s.active s kept s₁) (hkept : s.Kept g past seen back)
    (hdrop : ∀ j ∈ s.active, ∀ u p, (s.interval j).owner = .temp u → g.parent u = some p →
      drop j = true → p ∈ past) :
    ({ s₁ with active := kept } : Allocator).Kept g past seen back := by
  have hcount : s₁.notes.intervalCount = s.notes.intervalCount := by
    obtain ⟨registers, -, rfl⟩ := h.state_eq
    exact Notes.intervalCount_evacuate _ _
  have hext : s.Extends { s₁ with active := kept } :=
    h.extends.trans (.of_notes_eq rfl rfl rfl rfl)
  refine Kept.tended hkept hext.toContinues (List.Subset.refl _) ?_ ?_
  · intro j u p hj howner hparent
    refine .stays (h.sameMarks j) id fun hp => h.stayed fun hactive => ?_
    by_contra htrue
    exact hp (hdrop j hactive u p howner hparent (by simpa using htrue))
  · intro j p hle hlt
    have hlt' : j < s.notes.intervalCount := hcount ▸ hlt
    exact absurd hlt' (Nat.not_lt_of_le hle)

theorem not_mem_past (hsorted : s.notes.Sorted g) (htrees : g.treesFrom 0 = past ++ y :: future) :
    y ∉ past := fun hy =>
  Nat.lt_irrefl _ (hsorted.lt_of_mem_past htrees hy)

/-- The registers that were released when a tree is reached. -/
theorem release_serving (hg : g.Formed pending) (htrees : g.treesFrom 0 = past ++ y :: future)
    (hrest : Rested g past s) (hregs : ∀ u ∈ y.subtrees, 0 ≤ s.notes.reg u)
    (h : release y { s with tree := some y, reuse := false } = .ok () s₁) :
    Serving g past y [] ((s₁.notes.tree y).restores.map Restore.interval) s₁ := by
  obtain ⟨kept, s₂, hsifted, rfl⟩ := release_cases h
  have hs₀ := hrest.orderly.turn (some y) false
  have hs₁ := hsifted.orderly hs₀
  have htree : ∀ x, s₂.notes.tree x = s.notes.tree x := hsifted.tree_eq
  have hturn : s.Extends { s with tree := some y, reuse := false } := .of_notes_eq rfl rfl rfl rfl
  have hlast : s₂.Extends { s₂ with active := kept } := .of_notes_eq rfl rfl rfl rfl
  have hext := (hturn.trans (hsifted.extends.trans hlast)).toContinues
  have hcount : s₂.notes.intervalCount = s.notes.intervalCount := hsifted.count_eq
  have hy := not_mem_past hrest.sorted htrees
  have hytrees : y ∈ g.treesFrom 0 := by simp [htrees]
  -- A temporary is released exactly when its value has been taken.
  have hexpired : ∀ (j : Nat) u p, j < s.notes.intervalCount → (s.interval j).owner = .temp u →
      g.parent u = some p →
      (({ s with tree := some y, reuse := false } : Allocator).expired (s.notes.index y) j = true ↔
        s.notes.index p < s.notes.index y) := by
    intro j u p hj howner hparent
    have hu := hrest.sorted.lt_of_mem_past htrees (hrest.temps.owner_mem j u hj howner)
    have htemps : ({ s with tree := some y, reuse := false } : Allocator).Temporaries g past :=
      ⟨hrest.temps.owner_mem, hrest.temps.writes_eq, hrest.temps.owner_inj, hrest.temps.created,
        hrest.temps.kind_ne⟩
    rw [expired_temp hs₀.toOwned htemps hj howner hparent hu]
    simp
  have hmem : ∀ j, j ∈ kept ↔ j ∈ s.active ∧
      ({ s with tree := some y, reuse := false } : Allocator).expired (s.notes.index y) j =
        false := by
    intro j
    rw [hsifted.kept_eq]
    simp
  have hkept : ({ s₂ with active := kept } : Allocator).Kept g past past [] := by
    refine hsifted.kept hrest.kept ?_
    intro j hj u p howner hparent hdrop
    have hlt := hrest.orderly.active_lt j hj
    have hu := hrest.temps.owner_mem j u hlt howner
    have hu' := Graph.mem_treesFrom_of_past htrees hu
    exact hrest.sorted.mem_past_of_lt htrees (hrest.sorted.parent_spec hg hu' hparent).1
      ((hexpired j u p hlt howner hparent).mp hdrop)
  constructor
  · exact hs₁
  · exact hrest.sorted.congr hext.index_eq
  · exact hrest.temps.congr hext hcount
  · exact Kept.mono hkept (List.subset_append_left _ _)
  · intro u hu
    rw [Notes.reg, htree]
    exact hregs u hu
  · intro j hj u p howner hparent
    obtain ⟨hactive, hkeep⟩ := (hmem j).mp hj
    have hlt := hrest.orderly.active_lt j hactive
    rw [hext.owner_eq hlt] at howner
    rw [hext.index_eq, hext.index_eq]
    by_contra hnot
    rw [(hexpired j u p hlt howner hparent).mpr (Nat.lt_of_not_le hnot)] at hkeep
    cases hkeep
  · intro j hj
    cases hj
  · intro j u hj howner hparent
    obtain ⟨out, hdetour, -, hplace⟩ := hkept j u y hj howner hparent
    cases out with
    | none =>
        left
        simpa using hplace hy
    | some x =>
        right
        have hpos : 0 < s₂.notes.restoreCount j y := by
          have hone := (hdetour y).2
          rw [if_pos rfl] at hone
          have hone' : s₂.notes.restoreCount j y = 1 := hone
          omega
        obtain ⟨r, hr, hrj⟩ := Notes.restoreCount_pos_iff.mp hpos
        exact List.mem_map.mpr ⟨r, hr, hrj⟩
  · rw [List.nodup_iff_count_le_one]
    intro j
    by_cases hzero : 0 < s₂.notes.restoreCount j y
    · obtain ⟨r, hr, hrj⟩ := Notes.restoreCount_pos_iff.mp hzero
      have hslots : s₂.slots.length ≤ j := by
        rw [htree] at hr
        rw [hsifted.extends.slots_eq]
        exact hrj ▸ (hrest.ahead y hytrees hy).2 r hr
      have hsorted₁ : ({ s₂ with active := kept } : Allocator).notes.Sorted g :=
        hrest.sorted.congr hext.index_eq
      obtain ⟨u, out, -, -, hout, hdetour⟩ := Kept.of_restore hkept hg hs₁ hsorted₁
        (hrest.temps.congr hext hcount) htrees hslots hr hrj
      obtain ⟨x, rfl⟩ := Option.ne_none_iff_exists'.mp hout
      have hone := (hdetour y).2
      rw [if_pos rfl] at hone
      exact Nat.le_of_eq hone
    · exact Nat.le_of_lt_succ (Nat.lt_succ_of_le (Nat.le_trans (Nat.le_of_not_lt hzero)
        (Nat.zero_le _)))
  · intro j hj
    obtain ⟨r, hr, hrj⟩ := List.mem_map.mp hj
    refine ⟨by simp, ?_, r, hr, hrj⟩
    have hr' : r ∈ (s.notes.tree y).restores := by
      rw [← htree]
      exact hr
    have hslots := hext.slots_eq
    rw [hslots]
    exact hrj ▸ (hrest.ahead y hytrees hy).2 r hr'

/-! ## Bringing operands back -/

namespace Serving

section

variable (hg : g.Formed pending) (htrees : g.treesFrom 0 = past ++ y :: future)
include hg htrees

/-- What is known of an operand that is still to be brought back. -/
theorem outside (h : Serving g past y back todo s) (hi : i ∈ todo) :
    i < s.notes.intervalCount ∧ (s.interval i).liveIn = none ∧
      ∃ u x, (s.interval i).owner = .temp u ∧ g.parent u = some y ∧ x ∈ past ++ [y] ∧
        s.notes.index u < s.notes.index x ∧ s.notes.index x < s.notes.index y := by
  obtain ⟨hback, hslots, r, hr, hri⟩ := h.noted i hi
  have hlt : i < s.notes.intervalCount := hri ▸ h.orderly.restore_lt y r hr
  obtain ⟨u, out, howner, hparent, hout, hdetour⟩ :=
    Kept.of_restore h.kept hg h.orderly h.sorted h.temps htrees hslots hr hri
  obtain ⟨out', hdetour', hbetween, hplace⟩ := h.kept i u y hlt howner hparent
  have hout' : out' ≠ none := by
    rintro rfl
    obtain ⟨x, rfl⟩ := Option.ne_none_iff_exists'.mp hout
    have hone := (hdetour y).2
    rw [(hdetour' y).2, if_pos rfl] at hone
    cases hone
  have hlive := hplace (not_mem_past h.sorted htrees)
  rw [if_pos ⟨hout', hback⟩] at hlive
  obtain ⟨x, hx⟩ := Option.ne_none_iff_exists'.mp hout'
  exact ⟨hlt, hlive, u, x, howner, hparent, hbetween x hx⟩

/-- An operand that is to be brought back is the left one of two: behind the other one no tree
could have spilled it. -/
theorem subtrees_eq (h : Serving g past y back todo s) (hi : i ∈ todo) :
    ∃ u right, (s.interval i).owner = .temp u ∧ y.subtrees = [u, right] := by
  obtain ⟨hlt, -, u, x, howner, hparent, hx, hux, hxy⟩ := h.outside hg htrees hi
  have hpast : ∀ z ∈ past ++ [y], z ∈ g.treesFrom 0 := by
    intro z hz
    rw [htrees, List.append_cons]
    exact List.mem_append_left _ hz
  have hu := hpast u (List.mem_append_left _ (h.temps.owner_mem i u hlt howner))
  obtain ⟨right, hsubtrees, -⟩ := h.sorted.left_of_between hg hu hparent (hpast x hx) hux hxy
  exact ⟨u, right, howner, hsubtrees⟩

/-- What is known of the operand that is brought back next. -/
theorem next (h : Serving g past y back (i :: todo) s) :
    i < s.notes.intervalCount ∧ (s.interval i).liveIn = none ∧
      ∃ u, (s.interval i).owner = .temp u ∧ g.parent u = some y := by
  obtain ⟨hlt, hlive, u, x, howner, hparent, -⟩ := h.outside hg htrees (i := i) (by simp)
  exact ⟨hlt, hlive, u, howner, hparent⟩

/-- One operand is brought back, and another interval may be spilled for it. -/
theorem activated (h : Serving g past y back (i :: todo) s) (hactivated : Activated g y i s s') :
    Serving g past y (back ++ [i]) todo s' := by
  obtain ⟨hlt, hlive, u, howner, hparent⟩ := h.next hg htrees
  obtain ⟨hi, hnodup⟩ := List.nodup_cons.mp h.todo_nodup
  obtain ⟨-, -, hrestore⟩ := h.noted i (by simp)
  have hext := hactivated.extends
  have hcount : s'.notes.intervalCount = s.notes.intervalCount := hactivated.intervalCount_eq
  have hactive := hactivated.mem_active hlive
  have hself : ∀ v p, (s.interval i).owner = .temp v → g.parent v = some p → p = y := by
    intro v p howner' hparent'
    rw [howner] at howner'
    injection howner' with howner'
    rw [← howner', hparent] at hparent'
    injection hparent' with hparent'
    exact hparent'.symm
  have hfate : ∀ (j : Nat) v p, j ≠ i → j < s.notes.intervalCount →
      (s.interval j).owner = .temp v → g.parent v = some p →
      Stayed j s s' ∨ Evicted y j s s' ∧ s.notes.index y < s.notes.index p ∧
        s.notes.nextUse j (s.notes.index y) = some p := by
    intro j v p hj hjlt howner' hparent'
    exact hactivated.fate_temp h.orderly (Ne.symm hj) hjlt howner' hparent'
      fun hmem => h.current j hmem v p howner' hparent'
  constructor
  · exact hactivated.orderly h.orderly hlt
  · exact h.sorted.congr hext.index_eq
  · exact h.temps.congr hext.toContinues hcount
  · refine Kept.tended h.kept hext.toContinues (List.subset_append_left _ _) ?_ ?_
    · intro j v p hjlt howner' hparent'
      by_cases hji : j = i
      · subst hji
        exact .returns (hactivated.sameMarks h.orderly hlt (Or.inr hrestore)) (by simp) hactive
      · rcases hfate j v p hji hjlt howner' hparent' with hstayed | ⟨hevicted, hlater, huse⟩
        · exact .stays hstayed.marks (by simp [hji]) fun _ => hstayed
        · have hv := h.sorted.lt_of_mem_past htrees (h.temps.owner_mem j v hjlt howner')
          have hp : p ∉ past := fun hp =>
            Nat.lt_asymm hlater (h.sorted.lt_of_mem_past htrees hp)
          have hback : j ∉ back := by
            intro hback
            rw [h.back_parent j hback v p howner' hparent'] at hlater
            exact Nat.lt_irrefl _ hlater
          exact .leaves y (by simp) hv hlater hp hback (by simp [hback, hji]) huse hevicted
    · intro j p hle hlt'
      exact absurd (hcount ▸ hlt') (Nat.not_lt_of_le hle)
  · intro v hv
    rw [hactivated.reg_eq]
    exact h.subtrees_reg v hv
  · intro j hj v p howner' hparent'
    rw [hext.index_eq, hext.index_eq]
    have hjlt : j < s.notes.intervalCount :=
      hcount ▸ (hactivated.orderly h.orderly hlt).active_lt j hj
    rw [hactivated.owner_eq] at howner'
    by_cases hji : j = i
    · exact Nat.le_of_eq (by rw [hself v p (hji ▸ howner') hparent'])
    · rcases hfate j v p hji hjlt howner' hparent' with hstayed | ⟨hevicted, -, -⟩
      · exact h.current j (hstayed.active_iff.mp hj) v p howner' hparent'
      · exact absurd hj hevicted.not_active
  · intro j hj v p howner' hparent'
    rcases List.mem_append.mp hj with hj | hj
    · rw [hactivated.owner_eq] at howner'
      exact h.back_parent j hj v p howner' hparent'
    · obtain rfl : j = i := by simpa using hj
      rw [hactivated.owner_eq] at howner'
      exact hself v p howner' hparent'
  · intro j v hj howner' hparent'
    rw [hcount] at hj
    rw [hactivated.owner_eq] at howner'
    by_cases hji : j = i
    · exact Or.inl (hji ▸ hactive)
    · rcases h.operands j v hj howner' hparent' with hmem | hmem
      · rcases hfate j v y hji hj howner' hparent' with hstayed | ⟨-, hlater, -⟩
        · exact Or.inl (hstayed.active_iff.mpr hmem)
        · exact absurd hlater (Nat.lt_irrefl _)
      · exact Or.inr ((List.mem_cons.mp hmem).resolve_left hji)
  · exact hnodup
  · intro j hj
    obtain ⟨hback, hslots, r, hr, hrj⟩ := h.noted j (by simp [hj])
    refine ⟨?_, hext.slots_eq ▸ hslots, r, hactivated.mem_restores hr, hrj⟩
    have hji : j ≠ i := by
      rintro rfl
      exact hi hj
    simp [hback, hji]

end

/-- The register of an operand that is back is noted. -/
theorem noteRestored (h : Serving g past y back todo s) (k : Nat) (reg : Option Int) :
    Serving g past y back todo { s with notes := noteRestored s.notes y k reg } := by
  have hmove : Move g y .preparing s { s with notes := Alloc.noteRestored s.notes y k reg } :=
    noteRestored_move s k reg
  have hext := hmove.extends
  have hmarks : ∀ j, s.notes.SameMarks (Alloc.noteRestored s.notes y k reg) j :=
    Notes.SameMarks.modifyTree rfl (map_interval_modify _ k reg)
  constructor
  · exact hmove.orderly h.orderly h.subtrees_reg
  · exact h.sorted.congr hext.index_eq
  · exact h.temps.congr hext.toContinues rfl
  · refine Kept.tended h.kept hext.toContinues (List.Subset.refl _) ?_ ?_
    · intro j u p _ _ _
      exact .stays (hmarks j) id fun _ => ⟨Iff.rfl, rfl, hmarks j⟩
    · intro j p hle hlt
      exact absurd hlt (Nat.not_lt_of_le hle)
  · exact fun u hu => hmove.reg_nonneg h.orderly (h.subtrees_reg u hu)
  · intro i hi u p howner hparent
    rw [hext.index_eq, hext.index_eq]
    exact h.current i hi u p howner hparent
  · exact h.back_parent
  · exact h.operands
  · exact h.todo_nodup
  · intro i hi
    obtain ⟨hback, hslots, hnoted⟩ := h.noted i hi
    refine ⟨hback, hslots, Notes.restoreCount_pos_iff.mp ?_⟩
    rw [(hmarks i y).2]
    exact Notes.restoreCount_pos_iff.mpr hnoted

end Serving

theorem carryRestore_error {k : Nat} {r : Restore} {fault : Fault}
    (hlive : (s.interval r.interval).liveIn = none)
    (h : carryRestore g t k r s = .error fault s') : fault.OfMove := by
  have hactivate : Confined (fun _ => False) Fault.OfMove (activate g t r.interval) s :=
    confined_activate Fault.admits_self (obtains_of_move (fun _ => id) _)
  rw [carryRestore, bind_apply_of_ok (interval_apply _ s), hlive] at h
  refine Confined.cause ?_ h
  refine hactivate.bind fun _ s₁ _ => confined_interval ?_
  exact confined_modifyTree fun _ => rfl

/-- All operands that were spilled are brought back, and no check fails. -/
theorem carryRestores_serving (hg : g.Formed pending)
    (htrees : g.treesFrom 0 = past ++ y :: future) {k : Nat} {rs : List Restore}
    (h : Serving g past y back (rs.map Restore.interval) s) :
    (∀ s', carryRestores g y k rs s = .ok () s' → ∃ back', Serving g past y back' [] s') ∧
      ∀ fault s', carryRestores g y k rs s = .error fault s' → fault.OfMove := by
  induction rs generalizing back k s with
  | nil =>
      refine ⟨?_, ?_⟩
      · intro s' hreturn
        obtain ⟨-, rfl⟩ := pure_cases hreturn
        exact ⟨back, h⟩
      · intro fault s' hstop
        cases hstop
  | cons r rs ih =>
      have hlive := (h.next hg htrees).2.1
      have hfirst : ∀ s₁, carryRestore g y k r s = .ok () s₁ →
          Serving g past y (back ++ [r.interval]) (rs.map Restore.interval) s₁ := by
        intro s₁ hcarry
        obtain ⟨-, s₂, hactivated, rfl⟩ := carryRestore_cases hcarry
        exact (h.activated hg htrees hactivated).noteRestored k _
      refine ⟨?_, ?_⟩
      · intro s' hreturn
        obtain ⟨⟨⟩, s₁, hcarry, hrest⟩ := exists_of_bind_apply_eq_ok hreturn
        exact (ih (hfirst s₁ hcarry)).1 s' hrest
      · intro fault s' hstop
        rcases bind_apply_eq_error_iff.mp hstop with hcarry | ⟨⟨⟩, s₁, hcarry, hrest⟩
        · exact carryRestore_error hlive hcarry
        · exact (ih (hfirst s₁ hcarry)).2 fault s' hrest

theorem recover_cases (h : recover g t s = .ok () s') :
    ∃ s₁ s₂, release t { s with tree := some t, reuse := false } = .ok () s₁ ∧
      carrySpills g (s₁.notes.tree t).spills s₁ = .ok () s₂ ∧
      carryRestores g t 0 (s₂.notes.tree t).restores s₂ = .ok () s' := by
  rw [recover, bind_apply_of_ok (modify_apply _ s)] at h
  obtain ⟨⟨⟩, s₁, hrelease, hbody⟩ := exists_of_bind_apply_eq_ok h
  obtain ⟨⟨⟩, s₂, hspills, hrestores⟩ := exists_of_bind_apply_eq_ok (get_bind_cases hbody)
  exact ⟨s₁, s₂, hrelease, hspills, get_bind_cases hrestores⟩

/-- No spill is recorded at a tree before it is scanned. -/
theorem spills_of_release (hrest : Rested g past s) (htrees : g.treesFrom 0 = past ++ y :: future)
    (h : release y { s with tree := some y, reuse := false } = .ok () s₁) :
    (s₁.notes.tree y).spills = [] := by
  obtain ⟨kept, s₂, hsifted, rfl⟩ := release_cases h
  rw [hsifted.tree_eq]
  exact (hrest.ahead y (by simp [htrees]) (not_mem_past hrest.sorted htrees)).1

/-- When the first part of the scan of a tree is over, the operands are back; and it stops
for no failed check. -/
theorem recover_serving (hg : g.Formed pending) (htrees : g.treesFrom 0 = past ++ y :: future)
    (hrest : Rested g past s) (hregs : ∀ u ∈ y.subtrees, 0 ≤ s.notes.reg u) :
    (∀ s', recover g y s = .ok () s' → ∃ back, Serving g past y back [] s') ∧
      ∀ fault s', recover g y s = .error fault s' → fault.OfMove := by
  refine ⟨?_, ?_⟩
  · intro s' h
    obtain ⟨s₁, s₂, hrelease, hcarry, hrestores⟩ := recover_cases h
    rw [spills_of_release hrest htrees hrelease] at hcarry
    obtain ⟨-, rfl⟩ := pure_cases hcarry
    exact (carryRestores_serving hg htrees (release_serving hg htrees hrest hregs hrelease)).1 s'
      hrestores
  · intro fault s' h
    rw [recover, bind_apply_of_ok (modify_apply _ s)] at h
    rcases bind_apply_eq_error_iff.mp h with hrelease | ⟨⟨⟩, s₁, hrelease, hbody⟩
    · exact ((confined_release Fault.admits_self).cause hrelease).ofMove
    · rw [bind_apply_of_ok (get_apply s₁), spills_of_release hrest htrees hrelease, carrySpills,
        bind_apply_of_ok (pure_apply _ s₁), bind_apply_of_ok (get_apply s₁)] at hbody
      exact (carryRestores_serving hg htrees (release_serving hg htrees hrest hregs hrelease)).2
        fault s' hbody

/-! ## Giving the tree its register -/

/-- In `s` the operands of the tree `y` have been taken. -/
structure Placing (g : Graph) (past : List Tree) (y : Tree) (s : Allocator) : Prop where
  orderly : s.Orderly g
  sorted : s.notes.Sorted g
  temps : s.Temporaries g past
  kept : s.Kept g (past ++ [y]) (past ++ [y]) []
  current : ∀ i ∈ s.active, ∀ u p, (s.interval i).owner = .temp u → g.parent u = some p →
    s.notes.index y ≤ s.notes.index p

theorem Serving.placing (h : Serving g past y back [] s) : Placing g past y s := by
  refine ⟨h.orderly, h.sorted, h.temps, ?_, h.current⟩
  intro i u p hi howner hparent
  obtain ⟨out, hdetour, hout, hplace⟩ := h.kept i u p hi howner hparent
  refine ⟨out, hdetour, hout, fun hp => ?_⟩
  rw [List.mem_append, not_or, List.mem_singleton] at hp
  have hback : i ∉ back := fun hi => hp.2 (h.back_parent i hi u p howner hparent)
  have hplace := hplace hp.1
  simpa [hback] using hplace

namespace Placing

theorem turn (h : Placing g past y s) (reuse : Bool) : Placing g past y { s with reuse } :=
  ⟨h.orderly.turn s.tree reuse, h.sorted,
    ⟨h.temps.owner_mem, h.temps.writes_eq, h.temps.owner_inj, h.temps.created, h.temps.kind_ne⟩,
    h.kept, h.current⟩

/-- Operands that are no longer needed are released. -/
theorem release (hg : g.Formed pending) (htrees : g.treesFrom 0 = past ++ y :: future)
    (h : Placing g past y s) (hrelease : release y s = .ok () s₁) : Placing g past y s₁ := by
  obtain ⟨kept, s₂, hsifted, rfl⟩ := release_cases hrelease
  have hcount : s₂.notes.intervalCount = s.notes.intervalCount := hsifted.count_eq
  have hext : s.Extends { s₂ with active := kept } :=
    hsifted.extends.trans (.of_notes_eq rfl rfl rfl rfl)
  constructor
  · exact hsifted.orderly h.orderly
  · exact h.sorted.congr hext.index_eq
  · exact h.temps.congr hext.toContinues hcount
  · refine hsifted.kept h.kept ?_
    intro j hj u p howner hparent hdrop
    have hlt := h.orderly.active_lt j hj
    have hu := h.temps.owner_mem j u hlt howner
    have hu' := Graph.mem_treesFrom_of_past htrees hu
    have hp := (h.sorted.parent_spec hg hu' hparent).1
    rw [expired_temp h.orderly.toOwned h.temps hlt howner hparent
      (h.sorted.lt_of_mem_past htrees hu)] at hdrop
    rw [List.mem_append, List.mem_singleton]
    rcases hdrop with hlt | ⟨-, heq⟩
    · exact Or.inl (h.sorted.mem_past_of_lt htrees hp hlt)
    · exact Or.inr (h.sorted.eq_of_index_eq htrees hp heq)
  · intro i hi u p howner hparent
    have hactive : i ∈ s.active := by
      have hfilter : i ∈ kept := hi
      rw [hsifted.kept_eq] at hfilter
      exact (List.mem_filter.mp hfilter).1
    rw [hext.index_eq, hext.index_eq]
    rw [hext.owner_eq (h.orderly.active_lt i hactive)] at howner
    exact h.current i hactive u p howner hparent

/-- What becomes of a temporary when another interval comes into a register. -/
theorem tended (htrees : g.treesFrom 0 = past ++ y :: future) (h : Placing g past y s)
    (hj : j < s.notes.intervalCount) (howner : (s.interval j).owner = .temp u)
    (hfate : Stayed j s s' ∨ Evicted y j s s' ∧ s.notes.index y < s.notes.index p ∧
      s.notes.nextUse j (s.notes.index y) = some p) :
    Tended (past ++ [y]) (past ++ [y]) [] [] s s' j u p := by
  rcases hfate with hstayed | ⟨hevicted, hlater, huse⟩
  · exact .stays hstayed.marks id fun _ => hstayed
  · have hu := h.sorted.lt_of_mem_past htrees (h.temps.owner_mem j u hj howner)
    refine .leaves y (by simp) hu hlater ?_ (by simp) (by simp) huse hevicted
    rw [List.mem_append, List.mem_singleton]
    rintro (hp | rfl)
    · exact Nat.lt_asymm hlater (h.sorted.lt_of_mem_past htrees hp)
    · exact Nat.lt_irrefl _ hlater

/-- A variable comes into a register. -/
theorem load (htrees : g.treesFrom 0 = past ++ y :: future) (h : Placing g past y s)
    (hi : i < s.slots.length) (hactivated : Activated g y i s s') :
    s'.Kept g (past ++ [y]) (past ++ [y]) [] := by
  refine Kept.tended h.kept hactivated.extends.toContinues (List.Subset.refl _) ?_ ?_
  · intro j u p hj howner hparent
    have hij : i ≠ j := by
      rintro rfl
      rw [h.orderly.owner_slot i hi] at howner
      cases howner
    exact h.tended htrees hj howner (hactivated.fate_temp h.orderly hij hj howner hparent
      fun hmem => h.current j hmem u p howner hparent)
  · intro j p hle hlt
    exact absurd (hactivated.intervalCount_eq ▸ hlt) (Nat.not_lt_of_le hle)

end Placing

/-- The note on the tree that is scanned gets another register. -/
theorem Kept.annotate (h : s.Kept g past seen back) {f : TreeNote → TreeNote}
    (hindex : (f (s.notes.tree y)).index = (s.notes.tree y).index)
    (hspills : (f (s.notes.tree y)).spills = (s.notes.tree y).spills)
    (hrestores : (f (s.notes.tree y)).restores.map Restore.interval =
      (s.notes.tree y).restores.map Restore.interval) :
    ({ s with notes := s.notes.modifyTree y f } : Allocator).Kept g past seen back := by
  have hmarks := Notes.SameMarks.modifyTree hspills hrestores
  refine Kept.tended h (extends_modifyTree s y hindex).toContinues (List.Subset.refl _) ?_ ?_
  · intro j u p _ _ _
    exact .stays (hmarks j) id fun _ => ⟨Iff.rfl, rfl, hmarks j⟩
  · intro j p hle hlt
    exact absurd hlt (Nat.not_lt_of_le hle)

theorem Kept.withReg (h : s.Kept g past seen back) (i : IntervalId) :
    ({ s with notes := withReg s.notes y i } : Allocator).Kept g past seen back := by
  cases hlive : (s.notes.interval i).liveIn with
  | none =>
      simp only [Alloc.withReg, hlive]
      exact h
  | some reg =>
      simp only [Alloc.withReg, hlive]
      exact Kept.annotate h rfl rfl rfl

theorem Temporaries.withReg {born : List Tree} (h : s.Temporaries g born) (i : IntervalId) :
    ({ s with notes := withReg s.notes y i } : Allocator).Temporaries g born := by
  cases hlive : (s.notes.interval i).liveIn with
  | none =>
      simp only [Alloc.withReg, hlive]
      exact h
  | some reg =>
      simp only [Alloc.withReg, hlive]
      exact h.congr (extends_modifyTree s y rfl).toContinues rfl

/-! ### Stores -/

theorem intervalCount_settle {reg : Int} (h : settle g t i reg s = .ok () s') :
    s'.notes.intervalCount = s.notes.intervalCount := by
  obtain ⟨s₁, s₂, k, hclear, hunseated, hk, rfl⟩ := settle_cases h
  have hcleared : s₁.notes.intervalCount = s.notes.intervalCount := by
    obtain ⟨m, -, ⟨-, rfl⟩ | ⟨j, -, ⟨-, rest, -, rfl⟩ | ⟨-, old, hspill⟩⟩⟩ := clearFor_cases hclear
    · rfl
    · rfl
    · obtain ⟨use, k', rest, -, -, -, -, rfl⟩ := spill_cases hspill
      simp only [intervalCount_spillNotes]
  cases hunseated with
  | moved => exact hcleared
  | entered => exact hcleared

/-- A store spills no temporary. -/
theorem settle_sameMarks (hs : s.Orderly g) {reg : Int} (h : settle g t i reg s = .ok () s')
    (htemp : (s.interval j).owner.isTemp = true) : s.notes.SameMarks s'.notes j := by
  obtain ⟨s₁, s₂, k, hclear, hunseated, hk, rfl⟩ := settle_cases h
  have hcleared : s.notes.SameMarks s₁.notes j := by
    obtain ⟨m, -, ⟨-, rfl⟩ | ⟨v, hv, ⟨-, rest, -, rfl⟩ | ⟨hslot, old, hspill⟩⟩⟩ :=
      clearFor_cases hclear
    · exact .refl _ j
    · exact .refl _ j
    · have hvj : v ≠ j := by
        rintro rfl
        rw [htemp] at hslot
        cases hslot
      exact (spill_stayed hs (hs.occupied_lt m v (Option.join_eq_some_iff.mp hv)) hspill hvj).marks
  cases hunseated with
  | moved => exact hcleared
  | entered => exact hcleared

/-- When a store is reached, no temporary waits for a later tree. -/
theorem Placing.store (hg : g.Formed pending) (htrees : g.treesFrom 0 = past ++ y :: future)
    (h : Placing g past y s) (hkind : y.kind = .stLocal) {reg : Int}
    (hsettle : settle g y i reg s = .ok () s') :
    s'.Kept g (past ++ [y]) (past ++ [y]) [] := by
  refine Kept.tended h.kept (extends_settle hsettle).toContinues (List.Subset.refl _) ?_ ?_
  · intro j u p hj howner hparent
    have htemp : (s.interval j).owner.isTemp = true := by
      rw [howner]
      rfl
    refine .stays (settle_sameMarks h.orderly hsettle htemp) id fun hp => ?_
    have hu := h.temps.owner_mem j u hj howner
    have hu' := Graph.mem_treesFrom_of_past htrees hu
    obtain ⟨hptrees, -, -⟩ := h.sorted.parent_spec hg hu' hparent
    have hfuture : p ∈ future := by
      rw [htrees, List.mem_append, List.mem_cons] at hptrees
      rw [List.mem_append, List.mem_singleton, not_or] at hp
      exact (hptrees.resolve_left hp.1).resolve_left hp.2
    have hvalue := h.sorted.isValue_of_between hg hu' hparent (by simp [htrees])
      (h.sorted.lt_of_mem_past htrees hu) (h.sorted.lt_of_mem_future htrees hfuture)
    rw [hkind] at hvalue
    cases hvalue
  · intro j p hle hlt
    exact absurd (intervalCount_settle hsettle ▸ hlt) (Nat.not_lt_of_le hle)

/-! ### Results -/

theorem Stayed.evicted (h : Stayed j s s₁) (hext : s.Extends s₁) (hj : j < s.notes.intervalCount)
    (hevicted : Evicted t j s₁ s') : Evicted t j s s' := by
  obtain ⟨reg, use, hlive, hnoted, hmarks⟩ := hevicted.noted
  refine ⟨h.active_iff.mp hevicted.active, hevicted.not_active, hevicted.liveIn_eq, reg, use,
    h.liveIn_eq ▸ hlive, ?_, ?_⟩
  · rw [hext.owner_eq hj, hext.nextUse_eq hj, hext.index_eq] at hnoted
    exact hnoted
  · refine Notes.SameMarks.trans (fun x => ?_) hmarks
    rw [Notes.spillCount_spillNotes, Notes.spillCount_spillNotes, Notes.restoreCount_spillNotes,
      Notes.restoreCount_spillNotes, (h.marks x).1, (h.marks x).2]
    exact ⟨rfl, rfl⟩

/-- The result of a tree comes into a register. -/
theorem Placing.result (htrees : g.treesFrom 0 = past ++ y :: future) (h : Placing g past y s)
    (hparent : g.parent y = some p) (hload : y.kind ≠ .ldLocal) (hstore : y.kind ≠ .stLocal)
    (hsubtrees : ∀ u ∈ y.subtrees, 0 ≤ s.notes.reg u)
    (hactivated : Activated g y s.notes.intervalCount
      { s with notes := s.notes.addInterval (tempOf s.notes y p) } s') :
    s'.Kept g (past ++ [y]) (past ++ [y]) [] ∧ s'.Temporaries g (past ++ [y]) := by
  have hs₀ : ({ s with notes := s.notes.addInterval (tempOf s.notes y p) } : Allocator).Orderly g :=
    Move.orderly h.orderly hsubtrees (.create p hparent hload hstore)
  have hext₀ := extends_addInterval s (tempOf s.notes y p)
  have htemps₀ := h.temps.create (not_mem_past h.sorted htrees) hload p
  have hold : ∀ {j : Nat}, j < s.notes.intervalCount →
      (s.notes.addInterval (tempOf s.notes y p)).interval j = s.interval j :=
    fun hj => s.notes.interval_addInterval_of_lt _ hj
  have hnew := s.notes.interval_addInterval_self (tempOf s.notes y p)
  have hcount := hactivated.intervalCount_eq
  refine ⟨?_, htemps₀.congr hactivated.extends.toContinues hcount⟩
  refine Kept.tended h.kept (hext₀.trans hactivated.extends).toContinues (List.Subset.refl _) ?_ ?_
  · intro j u q hj howner hparent'
    have hstayed : Stayed j s { s with notes := s.notes.addInterval (tempOf s.notes y p) } := by
      refine ⟨Iff.rfl, ?_, .refl _ j⟩
      rw [Allocator.interval, hold hj]
    have howner₀ : ((s.notes.addInterval (tempOf s.notes y p)).interval j).owner = .temp u := by
      rw [hold hj]
      exact howner
    have hfate := hactivated.fate_temp hs₀ (Nat.ne_of_gt hj) (Nat.lt_succ_of_lt hj) howner₀ hparent'
      fun hmem => h.current j hmem u q howner hparent'
    refine h.tended htrees hj howner ?_
    rcases hfate with hstayed' | ⟨hevicted, hlater, huse⟩
    · exact Or.inl (hstayed.trans hstayed')
    · refine Or.inr ⟨hstayed.evicted hext₀ hj hevicted, hlater, ?_⟩
      rw [← huse, hext₀.nextUse_eq hj]
      rfl
  · intro j q hle hlt
    obtain rfl : j = s.notes.intervalCount := by
      rw [hcount] at hlt
      exact Nat.le_antisymm (Nat.le_of_lt_succ hlt) hle
    refine ⟨?_, hactivated.mem_active (by rw [Allocator.interval, hnew]; rfl)⟩
    have hresult : (Owner.temp y).isResultOf y = true := by simp [Owner.isResultOf]
    have hmarks := hactivated.sameMarks hs₀ (Nat.lt_succ_self _)
      (Or.inl (by rw [Allocator.interval, hnew]; exact hresult))
    refine hmarks.detour (?_ : Notes.Detour _ _ q none)
    -- Nothing has been noted about an interval that was not there.
    intro x
    refine ⟨List.count_eq_zero.mpr ?_, List.count_eq_zero.mpr ?_⟩
    · intro hmem
      obtain ⟨sp, hsp, heq⟩ := List.mem_map.mp hmem
      exact Nat.lt_irrefl _ (heq ▸ h.orderly.spill_lt x sp hsp)
    · intro hmem
      obtain ⟨r, hr, heq⟩ := List.mem_map.mp hmem
      exact Nat.lt_irrefl _ (heq ▸ h.orderly.restore_lt x r hr)

/-- The tree gets the register it needs. -/
theorem Placing.place (hg : g.Formed pending) (htrees : g.treesFrom 0 = past ++ y :: future)
    (h : Placing g past y s) (hsubtrees : ∀ u ∈ y.subtrees, 0 ≤ s.notes.reg u)
    (hplace : place g y s = .ok () s') :
    s'.Kept g (past ++ [y]) (past ++ [y]) [] ∧ s'.Temporaries g (past ++ [y]) := by
  rcases place_cases hplace with ⟨hkind, hload⟩ | ⟨hkind, hstore⟩ |
      ⟨hload, hstore, ⟨p, hparent, htemp⟩ | ⟨hnone, rfl⟩⟩
  · obtain ⟨i, s₁, hslot, hactivated, rfl⟩ := scanLoad_cases hload
    have htemps := h.temps.congr hactivated.extends.toContinues hactivated.intervalCount_eq
    exact ⟨Kept.withReg (h.load htrees (h.orderly.slotOf_lt hslot) hactivated) i,
      Temporaries.withReg (htemps.skip (by simp [hkind])) i⟩
  · obtain ⟨i, value, rest, s₁, hslot, hvalue, hsettle, rfl⟩ := scanStore_cases hstore
    simp only [Graph.sharers_of_twins_eq_empty hg.twins_eq, List.foldl_cons, List.foldl_nil]
    have hsettled : s₁.Kept g (past ++ [y]) (past ++ [y]) [] ∧ s₁.Temporaries g past := by
      split at hsettle
      · rw [hsettle]
        exact ⟨h.kept, h.temps⟩
      · exact ⟨h.store hg htrees hkind hsettle,
          h.temps.congr (extends_settle hsettle).toContinues (intervalCount_settle hsettle)⟩
    refine ⟨Kept.annotate hsettled.1 rfl rfl rfl, ?_⟩
    exact (hsettled.2.skip (by simp [hkind])).congr (extends_modifyTree s₁ y rfl).toContinues rfl
  · obtain ⟨s₁, hactivated, rfl⟩ := scanTemp_cases htemp
    obtain ⟨hkept, htemps⟩ := h.result htrees hparent hload hstore hsubtrees hactivated
    exact ⟨Kept.withReg hkept _, Temporaries.withReg htemps _⟩
  · refine ⟨h.kept, h.temps.skip ?_⟩
    have hy : y ∈ g.treesFrom 0 := by simp [htrees]
    obtain ⟨b, -, hyb⟩ := List.mem_flatMap.mp hy
    have hvalue : y.kind.isValue = false := by
      by_contra htrue
      obtain ⟨p, -, -, hparent⟩ := hg.exists_parent hyb (by simpa using htrue)
      rw [hnone] at hparent
      cases hparent
    refine ⟨?_, ?_⟩
    · intro hkind
      rw [hkind] at hvalue
      cases hvalue
    · intro hkind
      rw [hkind] at hvalue
      cases hvalue

/-! ## The scan of a tree -/

/-- When all operands are back and those that are no longer needed are released, the tree can
get its register. -/
theorem Serving.placing_of_release (hg : g.Formed pending)
    (htrees : g.treesFrom 0 = past ++ y :: future) (h : Serving g past y back [] s) {reuse : Bool}
    (hrelease : (if reuse then Alloc.release y else pure ()) { s with reuse } = .ok () s₁) :
    Placing g past y s₁ ∧ ∀ u ∈ y.subtrees, 0 ≤ s₁.notes.reg u := by
  split at hrelease
  · refine ⟨(h.placing.turn reuse).release hg htrees hrelease, ?_⟩
    intro u hu
    have hmove : Move g y .preparing _ s₁ := release_move hrelease
    exact hmove.reg_nonneg (h.orderly.turn s.tree reuse) (h.subtrees_reg u hu)
  · obtain ⟨-, rfl⟩ := pure_cases hrelease
    exact ⟨h.placing.turn reuse, h.subtrees_reg⟩

theorem Ahead.leaves (hsorted : s.notes.Sorted g) (htrees : g.treesFrom 0 = past ++ y :: future)
    (h : s.Ahead g past) (hext : s.Continues s') (hleaves : Leaves y s s') :
    s'.Ahead g (past ++ [y]) := by
  intro z hz hnot
  rw [List.mem_append, List.mem_singleton, not_or] at hnot
  have hfuture : z ∈ future := by
    rw [htrees, List.mem_append, List.mem_cons] at hz
    exact (hz.resolve_left hnot.1).resolve_left hnot.2
  have hlt := hsorted.lt_of_mem_future htrees hfuture
  obtain ⟨hspills, hrestores⟩ := h z hz hnot.1
  refine ⟨(hleaves.spills_eq z hlt).trans hspills, ?_⟩
  intro r hr
  rw [hext.slots_eq]
  rcases hleaves.restores_or z hlt r hr with hr | hr
  · exact hrestores r hr
  · exact hr

theorem recover_moves (h : recover g t s = .ok () s') : ∃ rs, Moves g t .preparing rs s s' := by
  obtain ⟨s₁, s₂, hrelease, hspills, hrestores⟩ := recover_cases h
  exact ⟨_, .move (.turn s (some t) false) (.move (release_move hrelease)
    ((carrySpills_moves hspills fun sp hsp => hsp).append
      (carryRestores_moves hrestores fun r hr => ⟨r, hr, rfl⟩)))⟩

/-- The operands of `t` that are temporaries are active in `s'`. -/
def OperandsActive (g : Graph) (t : Tree) (s s' : Allocator) : Prop :=
  ∀ (i : Nat) u, i < s.notes.intervalCount → (s.interval i).owner = .temp u →
    g.parent u = some t → i ∈ s'.active

section

variable (hg : g.Formed pending) (htrees : g.treesFrom 0 = past ++ y :: future)
  (hrest : Rested g past s) (hsubtrees : ∀ u ∈ y.subtrees, 0 ≤ s.notes.reg u)
include hg htrees hrest hsubtrees

/-- The scan of a tree keeps the temporaries, and if it comes to an end all operands of the
tree were active after its restores. -/
theorem scanTree_rested (h : scanTree g y s = .ok () s') :
    Rested g (past ++ [y]) s' ∧ ∃ s₁, recover g y s = .ok () s₁ ∧ OperandsActive g y s s₁ := by
  have hmoves := scanTree_moves hg.twins_eq h
  have hext := hmoves.extends
  rw [scanTree_eq] at h
  obtain ⟨⟨⟩, s₁, hrecover, hfinish⟩ := exists_of_bind_apply_eq_ok h
  obtain ⟨back, hserving⟩ := (recover_serving hg htrees hrest hsubtrees).1 s₁ hrecover
  refine ⟨?_, s₁, hrecover, ?_⟩
  · rw [finish, bind_apply_of_ok (modify_apply _ s₁)] at hfinish
    obtain ⟨⟨⟩, s₂, hrelease, hplace⟩ := exists_of_bind_apply_eq_ok hfinish
    obtain ⟨hplacing, hregs⟩ := hserving.placing_of_release hg htrees hrelease
    obtain ⟨hkept, htemps⟩ := hplacing.place hg htrees hregs hplace
    exact
      { orderly := (hmoves.orderly hrest.orderly hsubtrees).1
        sorted := hrest.sorted.congr hext.index_eq
        temps := htemps
        kept := hkept
        ahead := Ahead.leaves hrest.sorted htrees hrest.ahead hext.toContinues
          (hmoves.leaves hrest.orderly hsubtrees) }
  · intro i u hi howner hparent
    obtain ⟨rs, hmoves⟩ := recover_moves hrecover
    have hext₁ := hmoves.extends
    rw [← hext₁.owner_eq hi] at howner
    have hi₁ := Nat.lt_of_lt_of_le hi hext₁.count_le
    exact (hserving.operands i u hi₁ howner hparent).resolve_right (by simp)

/-- The scan of a tree stops for no failed check. -/
theorem scanTree_error {fault : Fault} (h : scanTree g y s = .error fault s') : fault.OfMove := by
  rw [scanTree_eq] at h
  rcases bind_apply_eq_error_iff.mp h with hrecover | ⟨⟨⟩, s₁, -, hfinish⟩
  · exact (recover_serving hg htrees hrest hsubtrees).2 fault s' hrecover
  · have hstops : Confined (fun _ => False) Fault.OfMove (finish g y s.reuse) s₁ := by
      refine Confined.bind (confined_modify rfl) fun _ s₂ _ => Confined.bind ?_ fun _ s₃ _ =>
        confined_place Fault.admits_self nofun
          (fun q _ => obtains_of_move (fun _ => id) q)
          fun x _ => takes_of_record (fun _ => Fault.OfRecord.ofMove) x
      split
      · exact confined_release fun _ h _ => h.ofMove
      · exact confined_pure _
    exact hstops.cause hfinish

end

end Alloc
end LinearScan
