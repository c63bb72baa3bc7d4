import LinearScan.Proofs.Run

/-!
# Where restores are recorded

A temporary that is spilled is to be restored at the tree that takes its value.  A store
takes the value of the tree directly before it, which leaves no time to spill that value.
So no restore is ever recorded at a store, and the scan of a store asks for no register.
-/

namespace LinearScan

open Allocator

/-- Places rise along each block. -/
def Notes.Rising (n : Notes) (g : Graph) : Prop :=
  ∀ b ∈ g.blocksFrom 0, ∀ before t after, g.treesOf b = before ++ t :: after →
    ∀ u ∈ after, n.index t < n.index u

namespace Notes.Rising

variable {g : Graph} {pending : List Tree} {b : BlockId} {t u : Tree} {before after : List Tree}
  {n n' : Notes}

theorem congr (hn : n.Rising g) (h : ∀ u, n'.index u = n.index u) : n'.Rising g := by
  intro b hb before t after htrees u hu
  rw [h, h]
  exact hn b hb before t after htrees u hu

theorem number (hg : g.Formed pending) (n : Notes) : (n.number 0 (g.treesFrom 0)).Rising g := by
  intro b hb before t after htrees u hu
  exact hg.index_lt_of_treesOf n hb htrees hu

/-- What has been scanned has smaller places. -/
theorem index_lt_of_mem_before (hn : n.Rising g) (hb : b ∈ g.blocksFrom 0)
    (htrees : g.treesOf b = before ++ t :: after) (hu : u ∈ before) : n.index u < n.index t := by
  obtain ⟨xs, ys, rfl⟩ := List.append_of_mem hu
  exact hn b hb xs u (ys ++ t :: after) (by simp [htrees]) t (by simp)

/-- A value that was produced before `t` and is used at `t` or later is used by no store
but `t`. -/
theorem kind_ne_stLocal (hn : n.Rising g) (hg : g.Formed pending) (hb : b ∈ g.blocksFrom 0)
    (htrees : g.treesOf b = before ++ t :: after) (ht : t.kind ≠ .stLocal) (hu : u ∈ before)
    {p : Tree} (hparent : g.parent u = some p) (hvalue : u.kind.isValue = true)
    (hindex : n.index t ≤ n.index p) : p.kind ≠ .stLocal := by
  intro hstore
  have hub : u ∈ g.treesOf b := by simp [htrees, hu]
  obtain ⟨q, hq, huq, hparent'⟩ := hg.exists_parent hub hvalue
  obtain rfl : p = q := by
    rw [hparent] at hparent'
    injection hparent'
  obtain ⟨xs, ys, rfl⟩ := List.append_of_mem hu
  have hsplit : g.treesOf b = xs ++ u :: (ys ++ t :: after) := by simp [htrees]
  obtain ⟨rest, hrest⟩ := hg.after_eq_of_unary hsplit hq huq (by rw [hstore]; rfl)
  cases ys with
  | nil =>
      -- The store would be `t` itself.
      simp only [List.nil_append, List.cons.injEq] at hrest
      exact ht (hrest.1 ▸ hstore)
  | cons y ys =>
      simp only [List.cons_append, List.cons.injEq] at hrest
      obtain ⟨rfl, -⟩ := hrest
      have hlt := hn.index_lt_of_mem_before hb htrees (u := y) (by simp)
      exact absurd hlt (Nat.not_lt_of_le hindex)

end Notes.Rising

namespace Allocator

/-- In `s`, where the trees `before` of a block have been scanned, restores of temporaries
are recorded where these are used, and none at a store. -/
structure RestoresAtUse (g : Graph) (before : List Tree) (s : Allocator) : Prop where
  owner_mem : ∀ (i : Nat) u, i < s.notes.intervalCount → (s.interval i).owner = .temp u →
    u.kind.isValue = true ∧ ∃ b, u ∈ g.treesOf b
  active_mem : ∀ i ∈ s.active, ∀ u, (s.interval i).owner = .temp u → u ∈ before
  restore_parent : ∀ x, ∀ r ∈ (s.notes.tree x).restores, ∀ u,
    (s.interval r.interval).owner = .temp u → ∃ p, g.parent u = some p ∧ p.id = x.id
  store_restores : ∀ b, ∀ x ∈ g.treesOf b, x.kind = .stLocal → (s.notes.tree x).restores = []

namespace RestoresAtUse

variable {g : Graph} {before before' : List Tree} {s s' : Allocator}

/-- A change of registers, and of the local variables that are active. -/
theorem congr (h : s.RestoresAtUse g before) (hs : s.Orderly g) (hext : s.Continues s')
    (hcount : s'.notes.intervalCount = s.notes.intervalCount)
    (hactive : ∀ i : Nat, i ∈ s'.active → i ∈ s.active ∨ i < s.slots.length)
    (hrestores : ∀ x, (s'.notes.tree x).restores.map Restore.interval =
      (s.notes.tree x).restores.map Restore.interval) :
    s'.RestoresAtUse g before where
  owner_mem i u hi howner := by
    rw [hcount] at hi
    rw [hext.owner_eq hi] at howner
    exact h.owner_mem i u hi howner
  active_mem i hi u howner := by
    rcases hactive i hi with hold | hslot
    · rw [hext.owner_eq (hs.active_lt i hold)] at howner
      exact h.active_mem i hold u howner
    · rw [hext.owner_eq (Nat.lt_of_lt_of_le hslot hs.slots_le), hs.owner_slot i hslot] at howner
      cases howner
  restore_parent x r hr u howner := by
    obtain ⟨q, hq, hqr⟩ : ∃ q ∈ (s.notes.tree x).restores, q.interval = r.interval := by
      rw [Alloc.exists_restore_iff, ← hrestores]
      exact List.mem_map_of_mem hr
    rw [← hqr, hext.owner_eq (hs.restore_lt x q hq)] at howner
    exact h.restore_parent x q hq u howner
  store_restores b x hx hkind := by
    have hmap := hrestores x
    rw [h.store_restores b x hx hkind] at hmap
    exact List.map_eq_nil_iff.mp hmap

theorem mono (h : s.RestoresAtUse g before) (hbefore : before ⊆ before') :
    s.RestoresAtUse g before' :=
  ⟨h.owner_mem, fun i hi u howner => hbefore (h.active_mem i hi u howner),
    h.restore_parent, h.store_restores⟩

end RestoresAtUse
end Allocator

namespace Alloc

variable {g : Graph} {pending : List Tree} {b : BlockId} {t : Tree} {s s' : Allocator} {i : Nat}
  {before before' after : List Tree}

theorem restores_modifyTree (n : Notes) (u x : Tree) {f : TreeNote → TreeNote}
    (hf : (f (n.tree u)).restores.map Restore.interval =
      (n.tree u).restores.map Restore.interval) :
    ((n.modifyTree u f).tree x).restores.map Restore.interval =
      (n.tree x).restores.map Restore.interval := by
  rw [Notes.tree_modifyTree]
  split
  · next hux =>
      have hrow : n.tree x = n.tree u := by rw [Notes.tree, Notes.tree, hux]
      rw [hrow, hf]
  · rfl

theorem restoresAtUse_annotate (hs : s.Orderly g) (ht : s.RestoresAtUse g before)
    {f : TreeNote → TreeNote} (hindex : (f (s.notes.tree t)).index = (s.notes.tree t).index)
    (hrestores : (f (s.notes.tree t)).restores.map Restore.interval =
      (s.notes.tree t).restores.map Restore.interval) :
    ({ s with notes := s.notes.modifyTree t f } : Allocator).RestoresAtUse g before :=
  ht.congr hs (extends_modifyTree s t hindex).toContinues rfl (fun _ hi => Or.inl hi)
    fun x => restores_modifyTree s.notes t x hrestores

/-- What is done while a tree is prepared, apart from activations. -/
theorem Move.restoresAtUse (h : Move g t .preparing s s') (hs : s.Orderly g)
    (ht : s.RestoresAtUse g before) : s'.RestoresAtUse g before := by
  have hext := h.extends.toContinues
  cases h with
  | turn _ tree reuse => exact ht.congr hs hext rfl (fun i hi => Or.inl hi) (fun _ => rfl)
  | release hsifted =>
      refine ht.congr hs hext hsifted.count_eq ?_ fun x => ?_
      · intro i hi
        rw [hsifted.kept_eq] at hi
        exact Or.inl (List.mem_filter.mp hi).1
      · rw [hsifted.tree_eq]
  | carrySpill sp reg k rest hsp hlive hrest hk =>
      obtain ⟨-, rfl⟩ := removeAlike_active hs (hs.spill_lt t sp hsp) hrest
      refine ht.congr hs hext rfl ?_ (fun _ => rfl)
      exact fun i hi => Or.inl (List.mem_of_mem_erase hi)
  | annotate f hindex hspills hrestores hreg => exact restoresAtUse_annotate hs ht hindex hrestores

/-- A spill of a local variable records no restore. -/
theorem restores_spill_slot {reg : Int} (h : spill g t i s = .ok reg s')
    (hslot : (s.interval i).owner.isTemp = false) (x : Tree) :
    (s'.notes.tree x).restores = (s.notes.tree x).restores := by
  obtain ⟨use, k, rest, -, huse, -, -, rfl⟩ := spill_cases h
  rw [if_neg (by simp [hslot])] at huse
  subst huse
  simp [restores_spillNotes]

theorem clearFor_restoresAtUse (hs : s.Orderly g) (ht : s.RestoresAtUse g before) {reg : Int}
    (h : clearFor g t reg s = .ok () s') : s'.RestoresAtUse g before := by
  have hext := (extends_clearFor h).toContinues
  obtain ⟨k, -, ⟨-, rfl⟩ | ⟨j, hj, ⟨-, rest, hrest, rfl⟩ | ⟨hslot, old, hspill⟩⟩⟩ :=
    clearFor_cases h
  · exact ht
  · have hlt := hs.occupied_lt k j (Option.join_eq_some_iff.mp hj)
    obtain ⟨-, rfl⟩ := removeAlike_active hs hlt hrest
    refine ht.congr hs hext rfl ?_ (fun _ => rfl)
    exact fun i hi => Or.inl (List.mem_of_mem_erase hi)
  · have hlt := hs.occupied_lt k j (Option.join_eq_some_iff.mp hj)
    obtain ⟨-, hactive, -, -⟩ := spill_active hs hlt hspill
    have hcount : s'.notes.intervalCount = s.notes.intervalCount := by
      obtain ⟨use, k', rest, -, -, -, -, rfl⟩ := spill_cases hspill
      simp
    refine ht.congr hs hext hcount ?_ ?_
    · intro i hi
      rw [hactive] at hi
      exact Or.inl (List.mem_of_mem_erase hi)
    · intro x
      rw [restores_spill_slot hspill hslot]

theorem settle_restoresAtUse (hs : s.Orderly g) (ht : s.RestoresAtUse g before)
    (hi : i < s.slots.length) {reg : Int} (h : settle g t i reg s = .ok () s') :
    s'.RestoresAtUse g before := by
  obtain ⟨s₁, s₂, k, hclear, hunseated, hk, rfl⟩ := settle_cases h
  have hs₁ := clearFor_orderly hs hclear
  have ht₁ := clearFor_restoresAtUse hs ht hclear
  rw [← (extends_clearFor hclear).slots_eq] at hi
  have hext := hunseated.extends.trans (extends_seat s₂ i (some reg) k)
  refine ht₁.congr hs₁ hext.toContinues ?_ ?_ ?_
  · cases hunseated <;> rfl
  · intro j hj
    cases hunseated with
    | moved log hlive hm => exact Or.inl hj
    | entered hlive =>
        rcases List.mem_append.mp hj with hj | hj
        · exact Or.inl hj
        · obtain rfl : j = i := by simpa using hj
          exact Or.inr hi
  · intro x
    cases hunseated <;> rfl

/-! ## Activations -/

/-- A temporary that is active while `t` is scanned is restored at no store. -/
theorem spill_restoresAtUse (hg : g.Formed pending) (hb : b ∈ g.blocksFrom 0)
    (htrees : g.treesOf b = before ++ t :: after) (hrising : s.notes.Rising g)
    (hs : s.Orderly g) (ht : s.RestoresAtUse g before) (hkind : t.kind ≠ .stLocal)
    (hi : i ∈ s.active) {reg : Int} (h : spill g t i s = .ok reg s') :
    s'.RestoresAtUse g before := by
  have hlt := hs.active_lt i hi
  have hext := (extends_spill h).toContinues
  obtain ⟨-, hactive, -, -⟩ := spill_active hs hlt h
  obtain ⟨use, k, rest, -, huse, -, -, rfl⟩ := spill_cases h
  -- Either nothing is recorded, or a temporary is to be restored at its parent.
  have hparent : ∀ p, use = some p → ∃ u, (s.interval i).owner = .temp u ∧
      g.parent u = some p ∧ p.kind ≠ .stLocal := by
    intro p hp
    cases htemp : (s.interval i).owner.isTemp with
    | false =>
        rw [if_neg (by simp [htemp])] at huse
        rw [huse] at hp
        cases hp
    | true =>
        rw [if_pos htemp] at huse
        obtain ⟨u, q, howner, hq, huses, -⟩ := hs.owner_temp i ((hs.isTemp_iff hlt).mp htemp) hlt
        have huses' : (s.notes.interval i).uses = [q] := huses
        have hnext : s.notes.nextUse i (s.notes.index t) = some p := by rw [← huse.1, hp]
        rw [Notes.nextUse, huses'] at hnext
        have hmem := List.mem_of_find?_eq_some hnext
        obtain rfl : p = q := by simpa using hmem
        have hle : s.notes.index t ≤ s.notes.index p := by
          have hle := List.find?_some hnext
          simpa using hle
        exact ⟨u, howner, hq, hrising.kind_ne_stLocal hg hb htrees hkind
          (ht.active_mem i hi u howner) hq (ht.owner_mem i u hlt howner).1 hle⟩
  have hcount : (spillNotes s.notes t i reg use).intervalCount = s.notes.intervalCount := by simp
  have howner : ∀ {j : Nat}, j < s.notes.intervalCount →
      ((spillNotes s.notes t i reg use).interval j).owner = (s.interval j).owner :=
    fun hj => hext.owner_eq hj
  refine ⟨?_, ?_, ?_, ?_⟩
  · intro j u hj hju
    rw [hcount] at hj
    exact ht.owner_mem j u hj ((howner hj).symm.trans hju)
  · intro j hj u hju
    rw [hactive] at hj
    have hold := List.mem_of_mem_erase hj
    exact ht.active_mem j hold u ((howner (hs.active_lt j hold)).symm.trans hju)
  · intro x r hr u hru
    rw [restores_spillNotes] at hr
    split at hr
    · next hx =>
        rcases List.mem_append.mp hr with hr | hr
        · exact ht.restore_parent x r hr u ((howner (hs.restore_lt x r hr)).symm.trans hru)
        · obtain rfl : r = _ := by simpa using hr
          obtain ⟨p, hp, hpx⟩ := Option.map_eq_some_iff.mp hx
          obtain ⟨v, hv, hparent, -⟩ := hparent p hp
          have hvu := (howner hlt).symm.trans hru
          rw [hv] at hvu
          injection hvu with hvu
          exact ⟨p, hvu ▸ hparent, hpx⟩
    · exact ht.restore_parent x r hr u ((howner (hs.restore_lt x r hr)).symm.trans hru)
  · intro c x hx hstore
    rw [restores_spillNotes, if_neg, ht.store_restores c x hx hstore]
    intro hid
    obtain ⟨p, hp, hpx⟩ := Option.map_eq_some_iff.mp hid
    obtain ⟨v, hv, hparent, hne⟩ := hparent p hp
    obtain ⟨hvalue, c', hvc⟩ := ht.owner_mem i v hlt hv
    obtain ⟨q, hq, -, hparent'⟩ := hg.exists_parent hvc hvalue
    rw [hparent] at hparent'
    injection hparent' with hpq
    have heq := hg.planted.eq_of_id_eq (hg.mem_allTrees (hpq ▸ hq)) (hg.mem_allTrees hx) hpx
    exact hne (heq ▸ hstore)

theorem Reloaded.restoresAtUse (hg : g.Formed pending) (ht : s.RestoresAtUse g before)
    (hmem : t ∈ g.treesOf b) (hkind : t.kind ≠ .stLocal)
    (hparent : ∀ u, (s.interval i).owner = .temp u → u.id ≠ t.id →
      ∃ p, g.parent u = some p ∧ p.id = t.id)
    {reg : Nat} {n : Notes} (h : Reloaded g t i reg s.notes n) :
    ({ s with notes := n } : Allocator).RestoresAtUse g before := by
  rcases h.notes_cases with rfl | ⟨hresult, rfl⟩
  · exact ht
  · refine ⟨ht.owner_mem, ht.active_mem, ?_, ?_⟩
    · intro x r hr u hru
      rw [restores_addRestore] at hr
      split at hr
      · next htx =>
          rcases List.mem_append.mp hr with hr | hr
          · exact ht.restore_parent x r hr u hru
          · obtain rfl : r = _ := by simpa using hr
            have howner : (s.notes.interval i).owner = .temp u := hru
            have hne : u.id ≠ t.id := by
              intro hid
              simp [howner, Owner.isResultOf, hid] at hresult
            rw [← htx]
            exact hparent u hru hne
      · exact ht.restore_parent x r hr u hru
    · intro c x hx hstore
      have hne : t.id ≠ x.id := by
        intro hid
        have heq := hg.planted.eq_of_id_eq (hg.mem_allTrees hmem) (hg.mem_allTrees hx) hid
        exact hkind (heq ▸ hstore)
      rw [restores_addRestore, if_neg hne]
      exact ht.store_restores c x hx hstore

/-- An interval that becomes active. -/
theorem restoresAtUse_push (ht : s.RestoresAtUse g before) (hbefore : before ⊆ before')
    (howner : ∀ u, (s.interval i).owner = .temp u → u ∈ before')
    (registers : List (Option IntervalId)) (reg : Option Int) :
    ({ s with
      notes := s.notes.place i reg
      registers
      active := s.active ++ [i] } : Allocator).RestoresAtUse g before' := by
  have heq : ∀ j, ((s.notes.place i reg).interval j).owner = (s.interval j).owner :=
    fun j => s.notes.owner_place i j reg
  refine ⟨?_, ?_, ?_, ht.store_restores⟩
  · intro j u hj hju
    exact ht.owner_mem j u hj ((heq j).symm.trans hju)
  · intro j hj u hju
    have hju' := (heq j).symm.trans hju
    rcases List.mem_append.mp hj with hj | hj
    · exact hbefore (ht.active_mem j hj u hju')
    · obtain rfl : j = i := by simpa using hj
      exact howner u hju'
  · intro x r hr u hru
    exact ht.restore_parent x r hr u ((heq r.interval).symm.trans hru)

theorem Activated.restoresAtUse (hg : g.Formed pending) (hb : b ∈ g.blocksFrom 0)
    (htrees : g.treesOf b = before ++ t :: after) (hrising : s.notes.Rising g)
    (hs : s.Orderly g) (ht : s.RestoresAtUse g before) (hkind : t.kind ≠ .stLocal)
    (hi : i < s.notes.intervalCount) (hbefore : before ⊆ before')
    (howner : ∀ u, (s.interval i).owner = .temp u → u ∈ before')
    (hparent : ∀ u, (s.interval i).owner = .temp u → u.id ≠ t.id →
      ∃ p, g.parent u = some p ∧ p.id = t.id)
    (h : Activated g t i s s') : s'.RestoresAtUse g before' := by
  cases h with
  | already reg hlive => exact ht.mono hbefore
  | free number filled n hlive hchoose hreload hfilled =>
      have ht₁ := hreload.restoresAtUse hg ht (b := b) (by simp [htrees]) hkind hparent
      refine restoresAtUse_push ht₁ hbefore ?_ _ _
      intro u hu
      refine howner u ?_
      rwa [hreload.extends.owner_eq hi] at hu
  | evicted use v reg k s₁ hlive hchoose huse hvictim hspill hk =>
      have hv : v ∈ s.active := mem_active_of_victim hvictim
      have ht₁ := spill_restoresAtUse hg hb htrees hrising hs ht hkind hv hspill
      refine restoresAtUse_push ht₁ hbefore ?_ _ _
      intro u hu
      refine howner u ?_
      rwa [(extends_spill hspill).owner_eq hi] at hu

/-! ## Scans of trees -/

/-- A temporary whose restore is recorded at `t` is the value of a tree before `t`. -/
theorem RestoresAtUse.owner_mem_before (hg : g.Formed pending) (ht : s.RestoresAtUse g before)
    (hs : s.Orderly g) (htrees : g.treesOf b = before ++ t :: after) {r : Restore}
    (hr : r ∈ (s.notes.tree t).restores) {u : Tree}
    (howner : (s.interval r.interval).owner = .temp u) : u ∈ before := by
  obtain ⟨p, hparent, hid⟩ := ht.restore_parent t r hr u howner
  obtain ⟨hvalue, c, hu⟩ := ht.owner_mem r.interval u (hs.restore_lt t r hr) howner
  obtain ⟨q, hq, huq, hparent'⟩ := hg.exists_parent hu hvalue
  rw [hparent] at hparent'
  injection hparent' with hpq
  have ht' : t ∈ g.treesOf b := by simp [htrees]
  have heq : p = t := hg.planted.eq_of_id_eq (hg.mem_allTrees (hpq ▸ hq)) (hg.mem_allTrees ht') hid
  rw [← hpq, heq] at huq
  exact hg.subtree_mem_before htrees huq

theorem Moves.restoresAtUse (hg : g.Formed pending) (hb : b ∈ g.blocksFrom 0)
    (htrees : g.treesOf b = before ++ t :: after) {rs : List (Allocator × IntervalId)}
    (h : Moves g t .preparing rs s s') (hrising : s.notes.Rising g) (hs : s.Orderly g)
    (hsubtrees : ∀ u ∈ t.subtrees, 0 ≤ s.notes.reg u) (ht : s.RestoresAtUse g before) :
    s'.RestoresAtUse g before ∧ (t.kind = .stLocal → rs = []) := by
  induction h with
  | nil s => exact ⟨ht, fun _ => rfl⟩
  | move hmove _ ih =>
      exact ih (hrising.congr hmove.extends.index_eq) (hmove.orderly hs hsubtrees)
        (fun u hu => hmove.reg_nonneg hs (hsubtrees u hu)) (hmove.restoresAtUse hs ht)
  | @activate rs i s s₁ s' hreq hactivated hrest ih =>
      have hlt := hreq.lt hs
      cases hreq with
      | recorded r hr hri =>
          subst hri
          have ht' : t ∈ g.treesOf b := by simp [htrees]
          have hkind : t.kind ≠ .stLocal := by
            intro hstore
            rw [ht.store_restores b t ht' hstore] at hr
            cases hr
          have hs₁ := hactivated.orderly hs hlt
          have ht₁ : s₁.RestoresAtUse g before :=
            hactivated.restoresAtUse hg hb htrees hrising hs ht hkind hlt (List.Subset.refl _)
              (fun u hu => RestoresAtUse.owner_mem_before hg ht hs htrees hr hu)
              (fun u hu _ => ht.restore_parent t r hr u hu)
          have hsubtrees₁ : ∀ u ∈ t.subtrees, 0 ≤ s₁.notes.reg u := by
            intro u hu
            rw [hactivated.reg_eq]
            exact hsubtrees u hu
          have hrising₁ := hrising.congr hactivated.extends.index_eq
          exact ⟨(ih hrising₁ hs₁ hsubtrees₁ ht₁).1, fun hstore => absurd hstore hkind⟩

theorem restoresAtUse_create (ht : s.RestoresAtUse g before) (hs : s.Orderly g)
    (hmem : t ∈ g.treesOf b) (hvalue : t.kind.isValue = true) (p : Tree) :
    ({ s with notes := s.notes.addInterval (tempOf s.notes t p) } : Allocator).RestoresAtUse
      g before := by
  have hold : ∀ {j : Nat}, j < s.notes.intervalCount →
      (s.notes.addInterval (tempOf s.notes t p)).interval j = s.interval j :=
    fun hj => s.notes.interval_addInterval_of_lt _ hj
  refine ⟨?_, ?_, ?_, ht.store_restores⟩
  · intro i u hi howner
    by_cases hnew : s.notes.intervalCount = i
    · rw [Allocator.interval, Notes.interval_addInterval, if_pos hnew] at howner
      injection howner with howner
      exact howner ▸ ⟨hvalue, b, hmem⟩
    · have hlt : i < s.notes.intervalCount :=
        Nat.lt_of_le_of_ne (Nat.le_of_lt_succ hi) (Ne.symm hnew)
      rw [Allocator.interval, hold hlt] at howner
      exact ht.owner_mem i u hlt howner
  · intro i hi u howner
    rw [Allocator.interval, hold (hs.active_lt i hi)] at howner
    exact ht.active_mem i hi u howner
  · intro x r hr u howner
    rw [Allocator.interval, hold (hs.restore_lt x r hr)] at howner
    exact ht.restore_parent x r hr u howner

theorem restoresAtUse_withReg (hs : s.Orderly g) (ht : s.RestoresAtUse g before) (i : IntervalId) :
    ({ s with notes := withReg s.notes t i } : Allocator).RestoresAtUse g before := by
  cases hlive : (s.notes.interval i).liveIn with
  | none =>
      simp only [withReg, hlive]
      exact ht
  | some reg =>
      simp only [withReg, hlive]
      exact restoresAtUse_annotate hs ht rfl rfl

section

variable (hg : g.Formed pending) (hb : b ∈ g.blocksFrom 0)
  (htrees : g.treesOf b = before ++ t :: after) (hrising : s.notes.Rising g)
include hg hb htrees hrising

theorem place_restoresAtUse (hs : s.Orderly g) (hsubtrees : ∀ u ∈ t.subtrees, 0 ≤ s.notes.reg u)
    (ht : s.RestoresAtUse g before) (h : place g t s = .ok () s') :
    s'.RestoresAtUse g (before ++ [t]) := by
  have hmem : t ∈ g.treesOf b := by simp [htrees]
  have hbefore : before ⊆ before ++ [t] := List.subset_append_left _ _
  rcases place_cases h with ⟨hkind, hload⟩ | ⟨hkind, hstore⟩ |
      ⟨hload, hstore, ⟨p, hparent, htemp⟩ | ⟨hnone, rfl⟩⟩
  · obtain ⟨i, s₁, hslot, hactivated, rfl⟩ := scanLoad_cases hload
    have hlt := hs.slotOf_lt hslot
    have hcount := Nat.lt_of_lt_of_le hlt hs.slots_le
    have howner : ∀ u, (s.interval i).owner ≠ .temp u := by
      intro u hu
      rw [hs.owner_slot i hlt] at hu
      cases hu
    have ht₁ := hactivated.restoresAtUse hg hb htrees hrising hs ht (by simp [hkind]) hcount hbefore
      (fun u hu => absurd hu (howner u)) (fun u hu => absurd hu (howner u))
    exact restoresAtUse_withReg (hactivated.orderly hs hcount) ht₁ i
  · obtain ⟨i, value, rest, s₁, hslot, hvalue, hsettle, rfl⟩ := scanStore_cases hstore
    have hreg : 0 ≤ s.notes.reg value := hsubtrees value (by simp [hvalue])
    simp only [Graph.sharers_of_twins_eq_empty hg.twins_eq, List.foldl_cons, List.foldl_nil]
    have hsettled : s₁.Orderly g ∧ s₁.RestoresAtUse g before := by
      split at hsettle
      · exact hsettle ▸ ⟨hs, ht⟩
      · exact ⟨settle_orderly hs (hs.slotOf_lt hslot) hreg hsettle,
          settle_restoresAtUse hs ht (hs.slotOf_lt hslot) hsettle⟩
    exact (restoresAtUse_annotate hsettled.1 hsettled.2 rfl rfl).mono hbefore
  · obtain ⟨s₁, hactivated, rfl⟩ := scanTemp_cases htemp
    have hvalue := hg.isValue_of_parent hmem hparent
    have hcreated := Move.orderly hs hsubtrees (.create p hparent hload hstore)
    have ht₀ := restoresAtUse_create ht hs hmem hvalue p
    have howner : ∀ u, ((s.notes.addInterval (tempOf s.notes t p)).interval
        s.notes.intervalCount).owner = .temp u → u = t := by
      intro u hu
      rw [Notes.interval_addInterval, if_pos rfl] at hu
      injection hu with hu
      exact hu.symm
    have hrising₀ := hrising.congr (extends_addInterval s (tempOf s.notes t p)).index_eq
    have hlt := Nat.lt_succ_self s.notes.intervalCount
    have ht₁ := hactivated.restoresAtUse hg hb htrees hrising₀ hcreated ht₀ hstore hlt hbefore
      (fun u hu => by simp [howner u hu]) (fun u hu hne => absurd (by rw [howner u hu]) hne)
    exact restoresAtUse_withReg (hactivated.orderly hcreated hlt) ht₁ _
  · exact ht.mono hbefore

/-- The scan of a tree keeps restores where they belong, and that of a store asks for no
register. -/
theorem scanTree_restoresAtUse (hs : s.Scanning g before) (ht : s.RestoresAtUse g before)
    (h : scanTree g t s = .ok () s') :
    s'.RestoresAtUse g (before ++ [t]) ∧ (t.kind = .stLocal → requests g t s = []) := by
  have hsubtrees := Scanning.subtrees_reg hg hs htrees
  obtain ⟨s₁, hprepare, hplace⟩ := scanTree_cases h
  have hmoves := prepare_moves hprepare
  have hturned : ({ s with tree := some t } : Allocator).Orderly g :=
    hs.orderly.turn (some t) s.reuse
  have hturn : ({ s with tree := some t } : Allocator).RestoresAtUse g before :=
    ⟨ht.owner_mem, ht.active_mem, ht.restore_parent, ht.store_restores⟩
  obtain ⟨hs₁, hregs⟩ := hmoves.orderly hturned hsubtrees
  obtain ⟨ht₁, hrequests⟩ := hmoves.restoresAtUse hg hb htrees hrising hturned hsubtrees hturn
  refine ⟨place_restoresAtUse hg hb htrees (hrising.congr hmoves.extends.index_eq) hs₁
    (fun u hu => hregs u (hsubtrees u hu)) ht₁ hplace, ?_⟩
  intro hkind
  simp only [requests, hprepare, placeRequests, hkind, hrequests hkind, List.append_nil]

end

end Alloc
end LinearScan
