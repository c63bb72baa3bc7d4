import LinearScan.Proofs.Placement
import LinearScan.Proofs.Survey

/-!
# Every value that is restored is in memory

A temporary is restored only after it was spilled.  A variable is restored when it is read
while it is in no register.  It lost its register because it was spilled, and then its value
is in memory, or because it is stored to before it is read again, and then it is in a
register again when it is read.
-/

namespace LinearScan

open Allocator

/-- The tree is of the given kind and names the variable `k` by its number. -/
def Tree.Names (t : Tree) (kind : TreeKind) (k : Nat) : Prop :=
  t.kind = kind ∧ t.literal? = some (.num k)

instance (t : Tree) (kind : TreeKind) (k : Nat) : Decidable (t.Names kind k) :=
  inferInstanceAs (Decidable (_ ∧ _))

/-- Along the trees the variable `k` is stored to before it is read, if it is read at all. -/
def Unread (k : Nat) (ts : List Tree) : Prop :=
  ∀ before z after, ts = before ++ z :: after → z.Names .ldLocal k →
    ∃ w ∈ before, w.Names .stLocal k

namespace Unread

variable {k : Nat} {t : Tree} {ts : List Tree}

theorem not_names (h : Unread k (t :: ts)) : ¬ t.Names .ldLocal k := by
  intro hload
  obtain ⟨w, hw, -⟩ := h [] t ts rfl hload
  cases hw

theorem tail (h : Unread k (t :: ts)) (hstore : ¬ t.Names .stLocal k) : Unread k ts := by
  intro before z after hts hload
  obtain ⟨w, hw, hnames⟩ := h (t :: before) z after (by rw [hts]; rfl) hload
  rcases List.mem_cons.mp hw with rfl | hw
  · exact absurd hnames hstore
  · exact ⟨w, hw, hnames⟩

end Unread

namespace Allocator

/-- The lives of the variables are those that the survey found: they are read and written
where trees name them, and count as read up to the end. -/
structure Charted (g : Graph) (s : Allocator) : Prop where
  uses_eq : ∀ i : Nat, i < s.slots.length →
    (s.interval i).uses = (g.treesFrom 0).filter fun t => t.Names .ldLocal i
  writes_eq : ∀ i : Nat, i < s.slots.length →
    (s.interval i).writes = (g.treesFrom 0).filter fun t => t.Names .stLocal i
  lastRead_gt : ∀ i : Nat, i < s.slots.length → ∀ t ∈ g.treesFrom 0,
    (s.notes.index t : Int) < (s.interval i).lastRead

variable {g : Graph} {s s' : Allocator} {past future : List Tree} {y : Tree} {i : Nat}

theorem Charted.continues (h : s.Charted g) (hs : s.slots.length ≤ s.notes.intervalCount)
    (hext : s.Continues s') : s'.Charted g := by
  refine ⟨?_, ?_, ?_⟩
  · intro i hi
    rw [hext.slots_eq] at hi
    rw [hext.uses_eq (Nat.lt_of_lt_of_le hi hs), h.uses_eq i hi]
  · intro i hi
    rw [hext.slots_eq] at hi
    rw [hext.writes_eq (Nat.lt_of_lt_of_le hi hs), h.writes_eq i hi]
  · intro i hi t ht
    rw [hext.slots_eq] at hi
    rw [hext.lastRead_eq (Nat.lt_of_lt_of_le hi hs), hext.index_eq]
    exact h.lastRead_gt i hi t ht

/-- The first tree of a sorted list from some place on has the smallest index. -/
theorem index_le_of_find? {n : Notes} {ts : List Tree} {check : Tree → Bool} {t z : Tree}
    (hsorted : ts.Pairwise fun a b => n.index a < n.index b) (h : ts.find? check = some t)
    (hz : z ∈ ts) (hcheck : check z = true) : n.index t ≤ n.index z := by
  obtain ⟨-, before, after, rfl, hbefore⟩ := List.find?_eq_some_iff_append.mp h
  rw [List.pairwise_append, List.pairwise_cons] at hsorted
  rcases List.mem_append.mp hz with hz | hz
  · exact absurd hcheck (by simpa using hbefore z hz)
  · rcases List.mem_cons.mp hz with rfl | hz
    · exact Nat.le_refl _
    · exact Nat.le_of_lt (hsorted.2.1.1 z hz)

section

variable (h : s.Charted g) (hsorted : s.notes.Sorted g)
include h hsorted

/-- At the tree `y` that reads it, a variable is used next by `y`. -/
theorem Charted.nextUse_of_names (htrees : g.treesFrom 0 = past ++ y :: future)
    (hi : i < s.slots.length) (hnames : y.Names .ldLocal i) :
    s.notes.nextUse i (s.notes.index y) = some y := by
  have huses : (s.notes.interval i).uses =
      (g.treesFrom 0).filter fun t => t.Names .ldLocal i := h.uses_eq i hi
  have hmem : y ∈ (s.notes.interval i).uses := by
    rw [huses]
    exact List.mem_filter.mpr ⟨by simp [htrees], decide_eq_true hnames⟩
  cases huse : s.notes.nextUse i (s.notes.index y) with
  | none => exact absurd (List.find?_eq_none.mp huse y hmem) (by simp)
  | some use =>
      obtain ⟨huse', hge⟩ := index_of_nextUse huse
      have hle : s.notes.index use ≤ s.notes.index y := by
        refine index_le_of_find? ?_ huse hmem (by simp)
        rw [huses]
        exact hsorted.filter _
      rw [huses] at huse'
      rw [hsorted.eq_of_index_eq htrees (List.mem_of_mem_filter huse') (Nat.le_antisymm hle hge)]

/-- A variable is no longer needed at the tree `y` only if, from `y` on, it is stored to before
it is first read, and the tree that reads it was read for the current block. -/
theorem Charted.exists_of_expired (hy : y ∈ g.treesFrom 0) (hi : i < s.slots.length)
    (hexpired : s.expired (s.notes.index y) i = true) :
    ∃ use ∈ g.treesFrom 0, ∃ write ∈ g.treesFrom 0, use.Names .ldLocal i ∧
      write.Names .stLocal i ∧ s.block = some use.block ∧
      s.notes.index y ≤ s.notes.index write ∧ s.notes.index write < s.notes.index use ∧
      ∀ z ∈ g.treesFrom 0, z.Names .ldLocal i → s.notes.index y ≤ s.notes.index z →
        s.notes.index use ≤ s.notes.index z := by
  have hlast := h.lastRead_gt i hi y hy
  rw [expired, Bool.or_eq_true, Bool.or_eq_true] at hexpired
  rcases hexpired with (hover | hover) | hnext
  · have hlt := of_decide_eq_true hover
    omega
  · rw [Bool.and_eq_true, beq_iff_eq] at hover
    omega
  · split at hnext
    · next use write huse hwrite =>
        rw [Bool.and_eq_true, decide_eq_true_eq, beq_iff_eq] at hnext
        rw [Notes.nextUse, ← Allocator.interval, h.uses_eq i hi] at huse
        rw [Notes.nextWrite, ← Allocator.interval, h.writes_eq i hi] at hwrite
        obtain ⟨hutrees, hunames⟩ := List.mem_filter.mp (List.mem_of_find?_eq_some huse)
        obtain ⟨hwtrees, hwnames⟩ := List.mem_filter.mp (List.mem_of_find?_eq_some hwrite)
        have hyw : (s.notes.index y : Int) ≤ s.notes.index write := by
          simpa using List.find?_some hwrite
        refine ⟨use, hutrees, write, hwtrees, of_decide_eq_true hunames,
          of_decide_eq_true hwnames, hnext.1.symm, by omega, hnext.2, ?_⟩
        intro z hz hload hyz
        exact index_le_of_find? (hsorted.filter _) huse
          (List.mem_filter.mpr ⟨hz, decide_eq_true hload⟩) (by simpa using hyz)
    · cases hnext

/-- A variable loses its register at the tree `y` only if it is stored to before it is read,
from `y` on. -/
theorem Charted.unread_of_expired (htrees : g.treesFrom 0 = past ++ y :: future)
    (hi : i < s.slots.length) (hexpired : s.expired (s.notes.index y) i = true) :
    Unread i (y :: future) := by
  obtain ⟨use, -, write, hwtrees, -, hwnames, -, hyw, hwu, hfirst⟩ :=
    h.exists_of_expired hsorted (by simp [htrees]) hi hexpired
  intro before z after hlist hload
  have hsplit : g.treesFrom 0 = (past ++ before) ++ z :: after := by
    rw [htrees, hlist, List.append_assoc]
  have hyz : s.notes.index y ≤ s.notes.index z := by
    have hz : z ∈ y :: future := by simp [hlist]
    rcases List.mem_cons.mp hz with rfl | hz
    · exact Nat.le_refl _
    · exact Nat.le_of_lt (hsorted.lt_of_mem_future htrees hz)
  have huz := hfirst z (by simp [hsplit]) hload hyz
  have hmem := hsorted.mem_past_of_lt hsplit hwtrees (Nat.lt_of_lt_of_le hwu huz)
  refine ⟨write, (List.mem_append.mp hmem).resolve_left fun hpast => ?_, hwnames⟩
  have hlt := hsorted.lt_of_mem_past htrees hpast
  omega

end

end Allocator

namespace Alloc

variable {g : Graph} {pending past future : List Tree} {t y u p : Tree} {n : Notes}
  {s s₁ s' fin : Allocator} {i j k : Nat}

/-! ## Variables that lose their registers -/

/-- Between `s` and `s'` the interval `i` was spilled at the tree `t`, or it was not needed
there any more. -/
def Gone (t : Tree) (i : IntervalId) (s s' : Allocator) : Prop :=
  (∃ sp ∈ (s'.notes.tree t).spills, sp.interval = i) ∨
    ∃ s₀, s.Continues s₀ ∧ s₀.expired (s.notes.index t) i = true

/-- What is done about the variable `i` while `t` is scanned: if it loses its register there
is a reason, and it is restored only if it is read and has no register. -/
structure Minds (t : Tree) (i : IntervalId) (s s' : Allocator) : Prop where
  spills_subset : (s.notes.tree t).spills ⊆ (s'.notes.tree t).spills
  active : i ∈ s.active → i ∈ s'.active ∨ Gone t i s s'
  restored : i ∈ (s'.notes.tree t).restores.map Restore.interval →
    i ∈ (s.notes.tree t).restores.map Restore.interval ∨
      t.Names .ldLocal i ∧ (i ∈ s.active → Gone t i s s')

namespace Minds

theorem of_tree_eq (htree : s'.notes.tree t = s.notes.tree t)
    (hactive : i ∈ s.active → i ∈ s'.active ∨ Gone t i s s') : Minds t i s s' where
  spills_subset := by
    rw [htree]
    exact List.Subset.refl _
  active := hactive
  restored h := by
    rw [htree] at h
    exact Or.inl h

theorem trans (h : Minds t i s s₁) (hext : s.Continues s₁) (h' : Minds t i s₁ s') :
    Minds t i s s' := by
  have hfirst : Gone t i s s₁ → Gone t i s s' := by
    rintro (⟨sp, hsp, hi⟩ | hgone)
    · exact Or.inl ⟨sp, h'.spills_subset hsp, hi⟩
    · exact Or.inr hgone
  have hsecond : Gone t i s₁ s' → Gone t i s s' := by
    rintro (hspilled | ⟨s₀, hcontinues, hexpired⟩)
    · exact Or.inl hspilled
    · exact Or.inr ⟨s₀, hext.trans hcontinues, hext.index_eq t ▸ hexpired⟩
  refine ⟨List.Subset.trans h.spills_subset h'.spills_subset, ?_, ?_⟩
  · intro hi
    rcases h.active hi with hi | hgone
    · exact (h'.active hi).imp_right hsecond
    · exact Or.inr (hfirst hgone)
  · intro hi
    rcases h'.restored hi with hi | ⟨hnames, hgone⟩
    · exact (h.restored hi).imp_right fun hi => ⟨hi.1, fun hactive => hfirst (hi.2 hactive)⟩
    · refine Or.inr ⟨hnames, fun hactive => ?_⟩
      rcases h.active hactive with hactive | hgone'
      · exact hsecond (hgone hactive)
      · exact hfirst hgone'

end Minds

/-- A spill of another interval, or of `i` itself. -/
theorem spill_minds (hs : s.Orderly g) (hi : i < s.slots.length) (hj : j < s.notes.intervalCount)
    {reg : Int} (h : spill g t j s = .ok reg s') : Minds t i s s' := by
  obtain ⟨-, hactive, -, -⟩ := spill_active hs hj h
  obtain ⟨use, k, rest, -, huse, -, -, rfl⟩ := spill_cases h
  refine ⟨?_, ?_, ?_⟩
  · rw [spills_spillNotes, if_pos rfl]
    exact List.subset_append_left _ _
  · intro hmem
    by_cases hij : i = j
    · refine Or.inr (Or.inl ⟨⟨some reg, j⟩, ?_, hij.symm⟩)
      rw [spills_spillNotes, if_pos rfl]
      simp
    · left
      rw [hactive]
      exact (List.mem_erase_of_ne hij).mpr hmem
  · intro hmem
    left
    rw [restores_spillNotes] at hmem
    split at hmem
    · next hid =>
        rw [List.map_append, List.mem_append] at hmem
        rcases hmem with hmem | hmem
        · exact hmem
        · obtain rfl : i = j := by simpa using hmem
          -- Only of a temporary a restore is noted when it is spilled.
          have hslot : ¬ (s.interval i).owner.isTemp = true := by
            rw [hs.isTemp_iff hj]
            exact Nat.not_le_of_lt hi
          rw [if_neg hslot] at huse
          rw [huse] at hid
          cases hid
    · exact hmem

/-- What is noted at the tree that asks for an interval which comes into an empty register. -/
theorem Reloaded.tree_cases {reg : Nat} {n' : Notes} (h : Reloaded g t j reg n n') :
    (n'.tree t).spills = (n.tree t).spills ∧
      ((n'.tree t).restores = (n.tree t).restores ∨
        (n'.tree t).restores = (n.tree t).restores ++ [⟨some reg, j⟩]) := by
  rcases h.notes_cases with rfl | ⟨-, rfl⟩
  · exact ⟨rfl, Or.inl rfl⟩
  · rw [restores_addRestore, if_pos rfl, Notes.addRestore, Notes.tree_modifyTree, if_pos rfl]
    exact ⟨rfl, Or.inr rfl⟩

section

variable (hs : s.Orderly g) (hi : i < s.slots.length)
include hs hi

theorem Activated.minds (hnamed : t.kind = .ldLocal → s.slotOf t = .ok i → t.Names .ldLocal i)
    {phase : Phase} (hreq : Requested t j s phase) (h : Activated g t j s s') : Minds t i s s' := by
  cases h with
  | already => exact .of_tree_eq rfl Or.inl
  | free number filled n hlive hchoose hreload hfilled =>
      obtain ⟨hspills, hrestores⟩ := hreload.tree_cases
      refine ⟨?_, fun hmem => Or.inl (List.mem_append_left _ hmem), ?_⟩
      · rw [Notes.tree_place, hspills]
        exact List.Subset.refl _
      · intro hmem
        rw [Notes.tree_place] at hmem
        rcases hrestores with hsame | hmore
        · rw [hsame] at hmem
          exact Or.inl hmem
        · rw [hmore, List.map_append, List.mem_append] at hmem
          rcases hmem with hmem | hmem
          · exact Or.inl hmem
          · obtain rfl : i = j := by simpa using hmem
            cases hreq with
            | recorded r hr hri => exact Or.inl (List.mem_map.mpr ⟨r, hr, hri⟩)
            | load hkind hslot =>
                exact Or.inr ⟨hnamed hkind hslot, fun hmem => absurd hmem (not_mem_active hs hlive)⟩
            | result hlt howner =>
                rw [hs.owner_slot i hi] at howner
                cases howner
  | evicted use v reg k s₁ hlive hchoose huse hvictim hspill hk =>
      have hlt := hs.active_lt v (mem_active_of_victim hvictim)
      refine (spill_minds hs hi hlt hspill).trans (extends_spill hspill).toContinues ?_
      exact .of_tree_eq rfl fun hmem => Or.inl (List.mem_append_left _ hmem)

theorem clearFor_minds {reg : Int} (h : clearFor g t reg s = .ok () s') : Minds t i s s' := by
  obtain ⟨k, -, ⟨-, rfl⟩ | ⟨v, hv, ⟨htemp, rest, hrest, rfl⟩ | ⟨-, old, hspill⟩⟩⟩ :=
    clearFor_cases h
  · exact .of_tree_eq rfl Or.inl
  · have hlt := hs.occupied_lt k v (Option.join_eq_some_iff.mp hv)
    refine .of_tree_eq rfl fun hmem => Or.inl ?_
    obtain ⟨-, rfl⟩ := removeAlike_active hs hlt hrest
    refine (List.mem_erase_of_ne ?_).mpr hmem
    rintro rfl
    exact absurd ((hs.isTemp_iff hlt).mp htemp) (Nat.not_le_of_lt hi)
  · exact spill_minds hs hi (hs.occupied_lt k v (Option.join_eq_some_iff.mp hv)) hspill

theorem Move.minds {phase : Phase} (h : Move g t phase s s') : Minds t i s s' := by
  cases h with
  | turn _ tree reuse => exact .of_tree_eq rfl Or.inl
  | @release _ _ s₁ kept hsifted =>
      refine .of_tree_eq (hsifted.tree_eq t) fun hmem => ?_
      by_cases hexpired : s.expired (s.notes.index t) i = true
      · exact Or.inr (Or.inr ⟨s, .refl s, hexpired⟩)
      · left
        show i ∈ kept
        rw [hsifted.kept_eq]
        exact List.mem_filter.mpr ⟨hmem, by simp [hexpired]⟩
  | carrySpill sp reg k rest hsp hlive hrest hk =>
      refine .of_tree_eq rfl fun hmem => ?_
      obtain ⟨-, rfl⟩ := removeAlike_active hs (hs.spill_lt t sp hsp) hrest
      by_cases hsame : i = sp.interval
      · exact Or.inr (Or.inl ⟨sp, hsp, hsame.symm⟩)
      · exact Or.inl ((List.mem_erase_of_ne hsame).mpr hmem)
  | annotate f hindex hspills hrestores hreg =>
      refine ⟨?_, Or.inl, fun hmem => ?_⟩
      · rw [Notes.tree_modifyTree, if_pos rfl, hspills]
        exact List.Subset.refl _
      · rw [Notes.tree_modifyTree, if_pos rfl, hrestores] at hmem
        exact Or.inl hmem
  | create p hparent hload hstore => exact .of_tree_eq rfl Or.inl
  | settle j value rest hkind hslot hvalue hlive hsettle =>
      obtain ⟨s₁, s₂, k, hclear, hunseated, hk, rfl⟩ := settle_cases hsettle
      refine (clearFor_minds hs hi hclear).trans (extends_clearFor hclear).toContinues ?_
      cases hunseated with
      | moved => exact .of_tree_eq rfl Or.inl
      | entered => exact .of_tree_eq rfl fun hmem => Or.inl (List.mem_append_left _ hmem)

end

theorem Moves.minds {phase : Phase} {rs : List (Allocator × IntervalId)}
    (h : Moves g t phase rs s s') (hs : s.Orderly g)
    (hsubtrees : ∀ u ∈ t.subtrees, 0 ≤ s.notes.reg u) (hi : i < s.slots.length)
    (hnamed : t.NamesVariable s.slots.length) : Minds t i s s' := by
  induction h with
  | nil s => exact .of_tree_eq rfl Or.inl
  | move hmove _ ih =>
      have hslots := hmove.extends.slots_eq
      have hrest := ih (hmove.orderly hs hsubtrees)
        (fun u hu => hmove.reg_nonneg hs (hsubtrees u hu)) (hslots ▸ hi) (hslots ▸ hnamed)
      exact (hmove.minds hs hi).trans hmove.extends.toContinues hrest
  | activate hreq hactivated _ ih =>
      have hslots := hactivated.extends.slots_eq
      have hrest := ih (hactivated.orderly hs (hreq.lt hs))
        (fun u hu => (hactivated.reg_eq u).symm ▸ hsubtrees u hu) (hslots ▸ hi) (hslots ▸ hnamed)
      refine (hactivated.minds hs hi ?_ hreq).trans hactivated.extends.toContinues hrest
      intro hkind hslot
      obtain ⟨k, hk, hoperand⟩ := hnamed (Or.inl hkind)
      rw [slotOf_of_names hs.slots_eq hk hoperand] at hslot
      obtain rfl : k = i := Except.ok.inj hslot
      exact ⟨hkind, literal?_of_names hoperand⟩

/-! ## What is in memory -/

/-- When the trees `past` have been scanned and the trees `future` are still to come, the
intervals in `clean` have their values in memory: the temporaries that were spilled, and the
variables that are in no register and whose values are still needed. -/
structure Preserved (n : Notes) (past future : List Tree) (clean : IntervalId → Prop)
    (s : Allocator) : Prop where
  temps : ∀ x ∈ past, ∀ sp ∈ (n.tree x).spills, s.slots.length ≤ sp.interval → clean sp.interval
  slots : ∀ i : Nat, i < s.slots.length → i ∈ s.active ∨ clean i ∨ Unread i future

/-- A temporary that is restored at a tree was spilled there or before. -/
theorem Rested.spilled_of_restored (hrest : Rested g past s) {r : Restore}
    (hr : r ∈ (s.notes.tree y).restores) (htemp : s.slots.length ≤ r.interval) :
    ∃ x ∈ past, ∃ sp ∈ (s.notes.tree x).spills, sp.interval = r.interval := by
  have hlt := hrest.orderly.restore_lt y r hr
  obtain ⟨u, p, howner, hparent, -, -⟩ := hrest.orderly.owner_temp r.interval htemp hlt
  obtain ⟨out, hdetour, hout, -⟩ := hrest.kept r.interval u p hlt howner hparent
  have hpos : 0 < s.notes.restoreCount r.interval y :=
    Notes.restoreCount_pos_iff.mpr ⟨r, hr, rfl⟩
  cases out with
  | none =>
      rw [(hdetour y).2] at hpos
      cases hpos
  | some x =>
      have hone := (hdetour x).1
      rw [if_pos rfl] at hone
      have hmem : r.interval ∈ (s.notes.tree x).spills.map Spill.interval :=
        List.count_pos_iff.mp (Nat.lt_of_lt_of_eq Nat.zero_lt_one hone.symm)
      obtain ⟨sp, hsp, hinterval⟩ := List.mem_map.mp hmem
      exact ⟨x, (hout x rfl).1, sp, hsp, hinterval⟩

/-- A variable that is stored to is in a register afterwards. -/
theorem scanTree_stores (hg : g.Formed pending) (hs : s.Orderly g)
    (hregs : ∀ u ∈ y.subtrees, 0 ≤ s.notes.reg u) (hi : i < s.slots.length)
    (hkind : y.kind = .stLocal) (hoperand : y.operands.head? = some (.literal (.num i)))
    (h : scanTree g y s = .ok () s') : i ∈ s'.active := by
  have hmoves := scanTree_moves hg.twins_eq h
  have hs' := (hmoves.orderly hs hregs).1
  obtain ⟨s₁, hprepare, hplace⟩ := scanTree_cases h
  have hfirst : Moves g y .preparing _ { s with tree := some y } s₁ := prepare_moves hprepare
  have hs₁ := (hfirst.orderly (hs.turn (some y) s.reuse) hregs).1
  have hi₁ : i < s₁.slots.length := hfirst.extends.slots_eq ▸ hi
  have hstore : scanStore g y s₁ = .ok () s' := by
    rwa [place, hkind] at hplace
  obtain ⟨j, value, rest, s₂, hslot, -, hsettle, rfl⟩ := scanStore_cases hstore
  rw [slotOf_of_names hs₁.slots_eq hi₁ hoperand] at hslot
  obtain rfl : i = j := Except.ok.inj hslot
  simp only [Graph.sharers_of_twins_eq_empty hg.twins_eq, List.foldl_cons, List.foldl_nil] at hs' ⊢
  have hlive : (s₂.interval i).liveIn = some (s₁.notes.reg value) := by
    split at hsettle
    · next hlive => rwa [hsettle]
    · exact (settle_unmoved hs₁ hsettle).2.1
  exact hs'.slot_active i _ (hmoves.extends.slots_eq ▸ hi) hlive

/-- The interval `i` was spilled at the tree `y`. -/
def SpilledAt (n : Notes) (y : Tree) (i : IntervalId) : Prop :=
  ∃ sp ∈ (n.tree y).spills, sp.interval = i

namespace Scanned

variable {clean : IntervalId → Prop} (h : Scanned g fin past y future s s')
  (hcharted : s.Charted g)

include h hcharted

theorem spilled_or_unread (hi : i < s.slots.length) (hgone : Gone y i s s') :
    SpilledAt s'.notes y i ∨ Unread i (y :: future) := by
  refine hgone.imp_right ?_
  rintro ⟨s₀, hcontinues, hexpired⟩
  rw [← hcontinues.index_eq] at hexpired
  exact (hcharted.continues h.rested.orderly.slots_le hcontinues).unread_of_expired
    (h.rested.sorted.congr hcontinues.index_eq) h.trees_eq (hcontinues.slots_eq ▸ hi) hexpired

variable (hg : g.Formed pending) (hnamed : g.NamesVariables s.slots.length)

include hg hnamed

/-- What the scan of a tree does about a variable. -/
theorem minds (hi : i < s.slots.length) :
    (i ∈ s.active → i ∈ s'.active ∨ SpilledAt s'.notes y i ∨ Unread i (y :: future)) ∧
      (i ∈ (s'.notes.tree y).restores.map Restore.interval → y.Names .ldLocal i ∧
        (i ∈ s.active → SpilledAt s'.notes y i ∨ Unread i (y :: future))) := by
  have hrest := h.rested
  have hminds : Minds y i s s' :=
    (scanTree_moves hg.twins_eq h.scan_eq).minds hrest.orderly h.subtrees_reg hi
      (hnamed y h.mem_trees)
  have hgone := h.spilled_or_unread hcharted hi
  refine ⟨fun hactive => (hminds.active hactive).imp_right hgone, fun hmem => ?_⟩
  rcases hminds.restored hmem with hold | ⟨hnames, hwhy⟩
  · -- What was to be restored when `y` was reached are temporaries.
    obtain ⟨q, hq, rfl⟩ := List.mem_map.mp hold
    have hahead := (hrest.ahead y h.mem_trees (not_mem_past hrest.sorted h.trees_eq)).2 q hq
    exact absurd hahead (Nat.not_le_of_lt hi)
  · exact ⟨hnames, fun hactive => hgone (hwhy hactive)⟩

/-- What is restored at a tree is in memory. -/
theorem saved (hpreserved : Preserved fin.notes past (y :: future) clean s) :
    ∀ r ∈ (fin.notes.tree y).restores, Saved fin.notes y clean r.interval := by
  intro r hr
  rw [h.fixed_self] at hr
  by_cases htemp : s.slots.length ≤ r.interval
  · obtain ⟨x, hx, sp, hsp, hinterval⟩ :=
      (h.rested' hg).spilled_of_restored hr ((h.frame hg).slots_eq ▸ htemp)
    rw [← h.fixed x hx] at hsp
    rcases List.mem_append.mp hx with hx | hx
    · exact Or.inl (hinterval ▸ hpreserved.temps x hx sp hsp (hinterval ▸ htemp))
    · obtain rfl := List.mem_singleton.mp hx
      exact Or.inr ⟨sp, hsp, hinterval⟩
  · have hi := Nat.lt_of_not_le htemp
    obtain ⟨hnames, hwhy⟩ := (h.minds hcharted hg hnamed hi).2 (List.mem_map.mpr ⟨r, hr, rfl⟩)
    rcases hpreserved.slots _ hi with hactive | hclean | hunread
    · rcases hwhy hactive with hspilled | hunread
      · exact Or.inr (h.fixed_self ▸ hspilled)
      · exact absurd hnames hunread.not_names
    · exact Or.inl hclean
    · exact absurd hnames hunread.not_names

/-- After the scan of a tree, what is still needed and in no register is in memory. -/
theorem preserved (hpreserved : Preserved fin.notes past (y :: future) clean s) :
    Preserved fin.notes (past ++ [y]) future
      (fun i => Saved fin.notes y clean i ∧ ¬ Overwrites fin.notes y i) s' := by
  have hslots := (h.frame hg).slots_eq
  have hs' := (h.rested' hg).orderly
  refine ⟨?_, ?_⟩
  · intro x hx sp hsp htemp
    have hlt : sp.interval < s'.notes.intervalCount := by
      rw [h.fixed x hx] at hsp
      exact hs'.spill_lt x sp hsp
    obtain ⟨u, p, howner, -⟩ := hs'.owner_temp _ htemp hlt
    refine ⟨?_, ?_⟩
    · rcases List.mem_append.mp hx with hx | hx
      · exact Or.inl (hpreserved.temps x hx sp hsp (hslots ▸ htemp))
      · obtain rfl := List.mem_singleton.mp hx
        exact Or.inr ⟨sp, hsp, rfl⟩
    · rintro ⟨-, hcontent⟩
      rw [content_of_continues h.continues hlt, howner] at hcontent
      cases hcontent
  · intro i hi'
    have hi : i < s.slots.length := hslots ▸ hi'
    by_cases hstore : y.Names .stLocal i
    · left
      obtain ⟨k, -, hoperand⟩ := hnamed y h.mem_trees (Or.inr hstore.1)
      obtain rfl : k = i := by
        simpa [Int.ofNat_inj] using (literal?_of_names hoperand).symm.trans hstore.2
      exact scanTree_stores hg h.rested.orderly h.subtrees_reg hi hstore.1 hoperand h.scan_eq
    · have hkept : ¬ Overwrites fin.notes y i := by
        rintro ⟨hkind, hcontent⟩
        rw [content_of_continues h.continues (Nat.lt_of_lt_of_le hi' hs'.slots_le),
          hs'.owner_slot i hi'] at hcontent
        injection hcontent with hcontent
        exact hstore ⟨hkind, hcontent.symm⟩
      have hminds := (h.minds hcharted hg hnamed hi).1
      rw [SpilledAt, ← h.fixed_self] at hminds
      rcases hpreserved.slots i hi with hactive | hclean | hunread
      · rcases hminds hactive with hactive | hspilled | hunread
        · exact Or.inl hactive
        · exact Or.inr (Or.inl ⟨Or.inr hspilled, hkept⟩)
        · exact Or.inr (Or.inr (hunread.tail hstore))
      · exact Or.inr (Or.inl ⟨Or.inl hclean, hkept⟩)
      · exact Or.inr (Or.inr (hunread.tail hstore))

end Scanned

/-- Only what is in memory is restored along the scan of the trees. -/
theorem Course.backed {ts : List Tree} {clean : IntervalId → Prop}
    (h : Course g fin past ts s) (hg : g.Formed pending)
    (hnamed : g.NamesVariables s.slots.length) (hcharted : s.Charted g)
    (hpreserved : Preserved fin.notes past ts clean s) : Backed fin.notes clean ts := by
  induction h generalizing clean with
  | nil => exact trivial
  | cons hstep _ ih =>
      have hext := hstep.frame hg
      refine ⟨hstep.saved hcharted hg hnamed hpreserved, ?_⟩
      exact ih (hext.slots_eq ▸ hnamed)
        (hcharted.continues hstep.rested.orderly.slots_le hext.toContinues)
        (hstep.preserved hcharted hg hnamed hpreserved)

end Alloc
end LinearScan
