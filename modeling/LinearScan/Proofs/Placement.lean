import LinearScan.Proofs.Occupancy
import LinearScan.Proofs.Safekeeping

/-!
# Every value is in its place

Four things can go wrong when registers are given out, and the first of them is that a
request slips.  `Careful` says of finished notes that the other three did not happen: nothing
is spilled for a variable that is read, an operand that was spilled comes back into the
register in which it was produced, and the register of a variable that was read is not
filled again before the value is taken.  With none of the four, every value is where the
notes say it is.
-/

namespace LinearScan

open Allocator

/-- The tree whose result an interval is about. -/
def Owner.result? : Owner → Option Tree
  | .slot _ => none
  | .temp u => some u

/-- What the notes on trees must not show if the registers are to hold what is expected. -/
structure Notes.Careful (n : Notes) (g : Graph) (ts : List Tree) : Prop where
  /-- No interval is spilled to make room for a variable that is read. -/
  load_spills : ∀ t ∈ ts, t.kind = .ldLocal → (n.tree t).spills = []
  /-- An operand comes back into the register in which it was produced. -/
  restore_reg : ∀ t ∈ ts, ∀ r ∈ (n.tree t).restores,
    ∀ u ∈ (n.interval r.interval).owner.result?, r.reg = some (n.reg u)
  /-- From the read of a variable up to the tree that takes the value, nothing comes into the
  register of the variable. -/
  load_reg : ∀ u ∈ ts, u.kind = .ldLocal → ∀ p ∈ g.parent u, ∀ z ∈ ts,
    n.index u < n.index z → n.index z ≤ n.index p →
      (∀ r ∈ (n.tree z).restores, r.reg ≠ some (n.reg u)) ∧
        (n.index z < n.index p → z.kind = .const ∨ z.kind = .binOp → n.reg z ≠ n.reg u)

instance (n : Notes) (g : Graph) (ts : List Tree) : Decidable (n.Careful g ts) :=
  decidable_of_iff
    ((∀ t ∈ ts, t.kind = .ldLocal → (n.tree t).spills = []) ∧
      (∀ t ∈ ts, ∀ r ∈ (n.tree t).restores,
        ∀ u ∈ (n.interval r.interval).owner.result?, r.reg = some (n.reg u)) ∧
      ∀ u ∈ ts, u.kind = .ldLocal → ∀ p ∈ g.parent u, ∀ z ∈ ts,
        n.index u < n.index z → n.index z ≤ n.index p →
          (∀ r ∈ (n.tree z).restores, r.reg ≠ some (n.reg u)) ∧
            (n.index z < n.index p → z.kind = .const ∨ z.kind = .binOp → n.reg z ≠ n.reg u))
    ⟨fun h => ⟨h.1, h.2.1, h.2.2⟩, fun h => ⟨h.load_spills, h.restore_reg, h.load_reg⟩⟩

/-- A tree that is no load takes the results of its subtrees. -/
theorem Contents.mem_needs {n : Notes} {t : Tree} {need : Int × Content}
    (hload : t.kind ≠ .ldLocal) (h : need ∈ Contents.needs n t) :
    ∃ u ∈ t.subtrees, need = (n.reg u, .result u.id) := by
  have hmap : need ∈ t.subtrees.map fun u => (n.reg u, Content.result u.id) := by
    cases hkind : t.kind with
    | ldLocal => exact absurd hkind hload
    | binOp => rwa [needs, hkind] at h
    | stLocal => rwa [needs, hkind] at h
    | ret => rwa [needs, hkind] at h
    | _ =>
        rw [needs, hkind] at h
        cases h
  obtain ⟨u, hu, rfl⟩ := List.mem_map.mp hmap
  exact ⟨u, hu, rfl⟩

/-- If the tree is a load or a store, it names one of `count` variables by its number. -/
def Tree.NamesVariable (count : Nat) (t : Tree) : Prop :=
  t.kind = .ldLocal ∨ t.kind = .stLocal →
    ∃ k : Nat, k < count ∧ t.operands.head? = some (.literal (.num k))

/-- Every load and every store of the graph names one of `count` variables by its number. -/
def Graph.NamesVariables (g : Graph) (count : Nat) : Prop :=
  ∀ t ∈ g.treesFrom 0, t.NamesVariable count

namespace Alloc

variable {g : Graph} {pending past future : List Tree} {t y u p : Tree} {n : Notes}
  {H K : Contents} {done : List Restore} {s s₁ s₂ s' fin : Allocator} {i j k : Nat}

/-! ## Variables -/

theorem slotOf_of_names (hs : s.slots = List.range s.slots.length) (hk : k < s.slots.length)
    (h : t.operands.head? = some (.literal (.num k))) : s.slotOf t = .ok k := by
  cases hoperands : t.operands with
  | nil =>
      rw [hoperands] at h
      cases h
  | cons o os =>
      rw [hoperands] at h
      injection h with h
      subst h
      have hslot : s.slots[k]? = some k := by
        rw [hs, List.getElem?_range hk]
      simp only [slotOf, Notes.operands, hoperands, List.cons_append, Operand.position]
      simp [bind, Except.bind, Position.resolve_natCast hk, hslot]

theorem literal?_of_names (h : t.operands.head? = some (.literal (.num k))) :
    t.literal? = some (.num k) := by
  rw [Tree.literal?, h]
  rfl

/-- What an interval is about does not change. -/
theorem content_of_continues (hfin : s.Continues fin) (hi : i < s.notes.intervalCount) :
    fin.notes.content i = (s.interval i).owner.content := by
  rw [Notes.content, ← hfin.owner_eq hi]
  rfl

/-- The interval of the variable that a tree names. -/
theorem content_of_slotOf (hs : s.Owned g) (hnamed : g.NamesVariables s.slots.length)
    (hfin : s.Continues fin) (ht : t ∈ g.treesFrom 0)
    (hkind : t.kind = .ldLocal ∨ t.kind = .stLocal) (h : s.slotOf t = .ok i) :
    fin.notes.content i = .slot t.literal? ∧
      ∀ j : Nat, j < s.notes.intervalCount → fin.notes.content j = .slot t.literal? → j = i := by
  obtain ⟨k, hk, hoperand⟩ := hnamed t ht hkind
  rw [slotOf_of_names hs.slots_eq hk hoperand] at h
  injection h with h
  subst h
  have hcount := Nat.lt_of_lt_of_le hk hs.slots_le
  rw [literal?_of_names hoperand]
  refine ⟨by rw [content_of_continues hfin hcount, hs.owner_slot k hk]; rfl, ?_⟩
  intro j hj hcontent
  rw [content_of_continues hfin hj] at hcontent
  by_cases hslot : j < s.slots.length
  · rw [hs.owner_slot j hslot] at hcontent
    simp only [Owner.content, Content.slot.injEq, Option.some.injEq, Literal.num.injEq] at hcontent
    omega
  · obtain ⟨u, -, howner', -, -, -⟩ := hs.owner_temp j (Nat.le_of_not_lt hslot) hj
    rw [howner'] at hcontent
    cases hcontent

/-! ## Values of loads -/

/-- The values of loads that are still to be taken are in the registers of the loads. -/
def LoadsHeld (g : Graph) (n : Notes) (past : List Tree) (H : Contents) : Prop :=
  ∀ u ∈ past, u.kind = .ldLocal → ∀ p, g.parent u = some p → p ∉ past →
    .result u.id ∈ H (n.reg u)

/-- The result of another tree stays where it is, if its register is not filled. -/
theorem result_mem_exec {id : TreeId} {reg : Int} (h : Content.result id ∈ H reg)
    (hreg : y.kind = .const ∨ y.kind = .binOp → n.reg y ≠ reg) :
    .result id ∈ H.exec n y reg := by
  cases hkind : y.kind with
  | ldLocal =>
      rw [Contents.exec, hkind]
      by_cases heq : reg = n.reg y
      · subst heq
        simp [h]
      · dsimp only
        rwa [Function.update_of_ne heq]
  | const =>
      rw [Contents.exec, hkind]
      dsimp only
      rwa [Function.update_of_ne (Ne.symm (hreg (Or.inl hkind)))]
  | binOp =>
      rw [Contents.exec, hkind]
      dsimp only
      rwa [Function.update_of_ne (Ne.symm (hreg (Or.inr hkind)))]
  | stLocal =>
      have hkept : Content.result id ∈ (H reg).filter (· ≠ .slot y.literal?) := by
        simp [h]
      cases hsubtrees : y.subtrees with
      | nil =>
          rw [Contents.exec, hkind, hsubtrees]
          exact h
      | cons v rest =>
          rw [Contents.exec, hkind, hsubtrees]
          dsimp only
          split
          · exact List.mem_cons_of_mem _ hkept
          · exact hkept
  | _ =>
      rw [Contents.exec, hkind]
      exact h

section

variable (hsorted : n.Sorted g) (hcareful : n.Careful g (g.treesFrom 0)) (hg : g.Formed pending)
  (htrees : g.treesFrom 0 = past ++ y :: future) (h : LoadsHeld g n past H)
include hsorted hcareful hg htrees h

/-- The values of loads stay in their registers. -/
theorem LoadsHeld.step : LoadsHeld g n (past ++ [y]) ((H.prepare n y).exec n y) := by
  intro u hu hkind p hparent hp
  rw [List.mem_append, List.mem_singleton, not_or] at hp
  rcases List.mem_append.mp hu with hu | hu
  · have hutrees := Graph.mem_treesFrom_of_past htrees hu
    have hptrees := (hsorted.parent_spec hg hutrees hparent).1
    have hfuture : p ∈ future := by
      rw [htrees, List.mem_append, List.mem_cons] at hptrees
      exact (hptrees.resolve_left hp.1).resolve_left hp.2
    have hlt := hsorted.lt_of_mem_future htrees hfuture
    obtain ⟨hrestores, hreg⟩ := hcareful.load_reg u hutrees hkind p hparent y (by simp [htrees])
      (hsorted.lt_of_mem_past htrees hu) (Nat.le_of_lt hlt)
    refine result_mem_exec ?_ (hreg hlt)
    rw [Contents.prepare, Contents.restores_of_ne hrestores]
    exact h u hu hkind p hparent hp.1
  · obtain rfl : u = y := by simpa using hu
    rw [Contents.exec, hkind]
    simp

/-- An operand that is a load is still in the register of the load. -/
theorem LoadsHeld.operand (hu : u ∈ g.treesFrom 0) (hkind : u.kind = .ldLocal)
    (hparent : g.parent u = some y) : .result u.id ∈ H.prepare n y (n.reg u) := by
  have hlt := (hsorted.parent_spec hg hu hparent).2.2
  have hy : y ∉ past := fun hy => Nat.lt_irrefl _ (hsorted.lt_of_mem_past htrees hy)
  obtain ⟨hrestores, -⟩ := hcareful.load_reg u hu hkind y hparent y (by simp [htrees]) hlt
    (Nat.le_refl _)
  rw [Contents.prepare, Contents.restores_of_ne hrestores]
  exact h u (hsorted.mem_past_of_lt htrees hu hlt) hkind y hparent hy

end

/-! ## The scan of a tree -/

/-- The first part of the scan of a tree. -/
theorem prepare_stowed (hg : g.Formed pending) (htrees : g.treesFrom 0 = past ++ y :: future)
    (hrest : Rested g past s) (hregs : ∀ u ∈ y.subtrees, 0 ≤ s.notes.reg u)
    (hstocked : Stocked g n past H s)
    (hslips : ∀ q ∈ recordedRequests g y { s with tree := some y }, ¬ Slips y q)
    (h : prepare g y { s with tree := some y } = .ok () s₁) :
    ∃ done s₂, Serving g past y (done.map Restore.interval) [] s₂ ∧
      Refilled g n past y H done s₂ ∧
      (s₂.Extends s₁ ∧ ∀ x, s₁.notes.tree x = s₂.notes.tree x) ∧
      (s₁.notes.tree y).restores = done ∧ Placing g past y s₁ ∧
      Stowed g n past y H (done.foldl (Contents.restore n) H) s₁ := by
  obtain ⟨s₃, s₄, s₂, hrelease, hspills, hrestores, hend⟩ := prepare_cases h
  have hserving := release_serving hg htrees hrest hregs hrelease
  have hy := not_mem_past hrest.sorted htrees
  have hturned : Stocked g n past H { s with tree := some y, reuse := false } :=
    ⟨hstocked.filed, hstocked.housed, hstocked.home⟩
  obtain ⟨hfiled, hunmoved, htree⟩ :=
    release_unmoved (hrest.orderly.turn (some y) false) hturned.filed hrelease
  have hnone : (s₃.notes.tree y).spills = [] :=
    (congrArg TreeNote.spills (htree y)).trans (hrest.ahead y (by simp [htrees]) hy).1
  rw [recordedRequests, bind_apply_of_ok hrelease, bind_apply_of_ok (get_apply s₃),
    hspills] at hslips
  rw [hnone] at hspills
  obtain ⟨-, rfl⟩ := pure_cases hspills
  have hstart : Serving g past y (([] : List Restore).map Restore.interval) _ s₄ := hserving
  have hrefilled := (hturned.shrink hfiled hunmoved).refilled hy hnone
  obtain ⟨done, hserving', hrefilled', hdone⟩ :=
    carryRestores_refilled hg htrees hstart hrefilled rfl hslips hrestores
  have hturned' : Stowed g n past y H (done.foldl (Contents.restore n) H)
      { s₂ with reuse := s.reuse } :=
    ⟨⟨hrefilled'.filed, hrefilled'.housed, hrefilled'.home⟩, hrefilled'.untaken,
      hrefilled'.spilled⟩
  have hplacing := hserving'.placing.turn s.reuse
  have hext : s₂.Extends { s₂ with reuse := s.reuse } := .of_notes_eq rfl rfl rfl rfl
  refine ⟨done, s₂, hserving', hrefilled', ?_⟩
  split at hend
  · obtain ⟨hfiled', hunmoved', htree'⟩ :=
      release_unmoved hplacing.orderly hturned'.filed hend
    have hmove : Move g y .preparing { s₂ with reuse := s.reuse } s₁ := release_move hend
    exact ⟨⟨hext.trans hmove.extends, htree'⟩, (congrArg TreeNote.restores (htree' y)).trans hdone,
      hplacing.release hg htrees hend,
      hturned'.shrink hfiled' hunmoved' (congrArg TreeNote.spills (htree' y))⟩
  · subst hend
    exact ⟨⟨hext, fun _ => rfl⟩, hdone, hplacing, hturned'⟩

/-- A variable is read. -/
theorem scanLoad_stocked (hplacing : Placing g past y s) (h : Stowed g fin.notes past y H K s)
    (hcontents : (s.notes.tree y).restores.foldl (Contents.restore fin.notes) H = K)
    (hids : ∀ j ∈ s.active, ∀ u, (s.interval j).owner = .temp u → y.id ≠ u.id)
    (hrestores : ∀ r ∈ (s.notes.tree y).restores, s.slots.length ≤ r.interval)
    (hkind : y.kind = .ldLocal) (hload : scanLoad g y s = .ok () s') (hs' : s'.Orderly g)
    (hslips : ∀ q ∈ placeRequests g y s, ¬ Slips y q)
    (hcontent : ∀ i, s.slotOf y = .ok i → fin.notes.content i = .slot y.literal?)
    (hnote : fin.notes.tree y = s'.notes.tree y) (hspills : (s'.notes.tree y).spills = []) :
    (∀ need ∈ Contents.needs fin.notes y, need.2 ∈ H.prepare fin.notes y need.1) ∧
      Stocked g fin.notes (past ++ [y]) ((H.prepare fin.notes y).exec fin.notes y) s' := by
  obtain ⟨i, s₁, hslot, hactivated, rfl⟩ := scanLoad_cases hload
  rw [placeRequests, hkind, hslot] at hslips
  have hreg : fin.notes.reg y = (withReg s₁.notes y i).reg y := by rw [Notes.reg, Notes.reg, hnote]
  have hprepare : (s₁.notes.tree y).restores.foldl (Contents.restore fin.notes) H =
      H.prepare fin.notes y := by
    rw [Contents.prepare, hnote, restores_withReg]
  rw [spills_withReg] at hspills
  obtain ⟨hvalue, hstocked⟩ := h.load hplacing.orderly hcontents hids hrestores
    (hplacing.orderly.slotOf_lt hslot) (hslips _ (by simp)) hactivated hs' hspills hprepare
  rw [hcontent i hslot, ← hreg] at hvalue
  refine ⟨?_, hstocked.widen fun r c hc => ?_⟩
  · intro need hneed
    rw [Contents.needs, hkind] at hneed
    obtain rfl := List.mem_singleton.mp hneed
    exact hvalue
  · rw [Contents.exec, hkind]
    by_cases hr : r = fin.notes.reg y
    · subst hr
      simp [hc]
    · dsimp only
      rwa [Function.update_of_ne hr]

/-- A variable is stored. -/
theorem scanStore_stocked (htwins : g.twins = {}) (hplacing : Placing g past y s)
    (h : Stowed g fin.notes past y H K s)
    (hkind : y.kind = .stLocal) (hregs : ∀ u ∈ y.subtrees, 0 ≤ s.notes.reg u)
    (hstore : scanStore g y s = .ok () s')
    (hcontent : ∀ i, s.slotOf y = .ok i → fin.notes.content i = .slot y.literal? ∧
      ∀ j : Nat, j < s.notes.intervalCount → fin.notes.content j = .slot y.literal? → j = i)
    (hnote : fin.notes.tree y = s'.notes.tree y)
    (hsubtrees : ∀ u ∈ y.subtrees, fin.notes.reg u = s'.notes.reg u) :
    (fin.notes.tree y).restores = (s.notes.tree y).restores ∧
      (∀ sp ∈ (fin.notes.tree y).spills, H.Holds sp.reg (fin.notes.content sp.interval)) ∧
      Stocked g fin.notes (past ++ [y]) (K.exec fin.notes y) s' := by
  obtain ⟨i, value, rest, s₁, hslot, hvalue, hsettle, rfl⟩ := scanStore_cases hstore
  simp only [Graph.sharers_of_twins_eq_empty htwins, List.foldl_cons, List.foldl_nil]
    at hnote hsubtrees ⊢
  have hstored : ∀ x, (s₁.notes.addStored y (s.notes.reg value)).reg x = s₁.notes.reg x := by
    intro x
    rw [Notes.reg, Notes.addStored, Notes.tree_modifyTree]
    split <;> rfl
  have hreg : fin.notes.reg value = s.notes.reg value := by
    rw [hsubtrees value (by simp [hvalue]), hstored]
    split at hsettle
    · rw [hsettle]
    · exact reg_settle hsettle value
  obtain ⟨hslotcontent, hunique⟩ := hcontent i hslot
  have hexec : K.exec fin.notes y = fun r =>
      if r = s.notes.reg value then
        .slot y.literal? :: (K r).filter (· ≠ .slot y.literal?)
      else (K r).filter (· ≠ .slot y.literal?) := by
    rw [Contents.exec, hkind, hvalue]
    simp only [hreg]
  have hkept : ∀ r, ∀ c ∈ K r, c ≠ .slot y.literal? → c ∈ K.exec fin.notes y r := by
    intro r c hc hne
    have hfilter : c ∈ (K r).filter (· ≠ .slot y.literal?) :=
      List.mem_filter.mpr ⟨hc, decide_eq_true hne⟩
    rw [hexec]
    dsimp only
    split
    · exact List.mem_cons_of_mem _ hfilter
    · exact hfilter
  obtain ⟨hrestores, hspills, hstocked⟩ := h.store hplacing.orderly
    (hplacing.orderly.slotOf_lt hslot) (hregs value (by simp [hvalue])) hsettle hslotcontent
    (fun j hj hji hslotj => hji (hunique j (hplacing.orderly.active_lt j hj) hslotj))
    (by rw [hexec]; simp) hkept
  have hnoted : (fin.notes.tree y).restores = (s₁.notes.tree y).restores ∧
      (fin.notes.tree y).spills = (s₁.notes.tree y).spills := by
    rw [hnote, Notes.addStored, Notes.tree_modifyTree, if_pos rfl]
    exact ⟨rfl, rfl⟩
  refine ⟨?_, ?_, ?_⟩
  · exact hnoted.1.trans hrestores
  · rw [hnoted.2]
    exact hspills
  · exact hstocked.shrink hstocked.filed fun j hj => ⟨hj, rfl, rfl, fun u _ => hstored u⟩

/-- A tree produces a value. -/
theorem scanTemp_stocked (hplacing : Placing g past y s) (h : Stowed g fin.notes past y H K s)
    (hids : ∀ j ∈ s.active, ∀ u, (s.interval j).owner = .temp u → y.id ≠ u.id)
    (hkind : y.kind = .const ∨ y.kind = .binOp) (hregs : ∀ u ∈ y.subtrees, 0 ≤ s.notes.reg u)
    (hparent : g.parent y = some p) (htemp : scanTemp g y p s = .ok () s') (hs' : s'.Orderly g)
    (hslips : ∀ q ∈ placeRequests g y s, ¬ Slips y q) (hfin : s'.Continues fin)
    (hnote : fin.notes.tree y = s'.notes.tree y) :
    (fin.notes.tree y).restores = (s.notes.tree y).restores ∧
      (∀ sp ∈ (fin.notes.tree y).spills, H.Holds sp.reg (fin.notes.content sp.interval)) ∧
      Stocked g fin.notes (past ++ [y]) (K.exec fin.notes y) s' := by
  obtain ⟨s₁, hactivated, rfl⟩ := scanTemp_cases htemp
  have hrequests : placeRequests g y s =
      [({ s with notes := s.notes.addInterval (tempOf s.notes y p) }, s.notes.intervalCount)] := by
    rcases hkind with hkind | hkind <;> simp [placeRequests, hkind, hparent]
  have hslip := hslips _ (by rw [hrequests]; exact List.mem_singleton_self _)
  have hcreated := h.create hplacing.orderly p
  have hs₀ : ({ s with notes := s.notes.addInterval (tempOf s.notes y p) } : Allocator).Orderly g :=
    Move.orderly hplacing.orderly hregs
      (.create p hparent (by rintro heq; simp [heq] at hkind) (by rintro heq; simp [heq] at hkind))
  have hids₀ : ∀ j ∈ s.active, ∀ u,
      ((s.notes.addInterval (tempOf s.notes y p)).interval j).owner = .temp u → y.id ≠ u.id := by
    intro j hj u howner
    rw [Notes.interval_addInterval,
      if_neg (Nat.ne_of_gt (hplacing.orderly.active_lt j hj))] at howner
    exact hids j hj u howner
  have hnew := s.notes.interval_addInterval_self (tempOf s.notes y p)
  have hmoves : Moves g y .placing [] s₁
      { s₁ with notes := withReg s₁.notes y s.notes.intervalCount } := withReg_moves s₁ _
  have hcontinues := (hactivated.extends.trans hmoves.extends).toContinues.trans hfin
  have hcontent : fin.notes.content s.notes.intervalCount = .result y.id := by
    rw [content_of_continues hcontinues (Nat.lt_succ_self _), Allocator.interval, hnew]
    rfl
  have hreg : fin.notes.reg y = (withReg s₁.notes y s.notes.intervalCount).reg y := by
    rw [Notes.reg, Notes.reg, hnote]
  have hown : ((s.notes.addInterval (tempOf s.notes y p)).interval
      s.notes.intervalCount).owner.isResultOf y = true := by
    rw [hnew]
    exact decide_eq_true rfl
  have hrestores := hactivated.restores_eq hs₀ (Nat.lt_succ_self _) (Or.inl hown)
  refine ⟨?_, ?_, ?_⟩
  · rw [hnote, restores_withReg, hrestores]
    rfl
  · intro sp hsp
    rw [hnote, spills_withReg] at hsp
    exact hcreated.spilled_of_activated hs₀ hactivated hsp
  · have hexec : K.exec fin.notes y = Function.update K (fin.notes.reg y) [.result y.id] := by
      rcases hkind with hkind | hkind <;> rw [Contents.exec, hkind]
    rw [hexec, hreg]
    exact hcreated.result hs₀ hids₀ (by rw [Allocator.interval, hnew]; rfl)
      (by rw [Allocator.interval, hnew]; rfl) hslip hactivated hs' hcontent

/-- A tree that produces a value and is no load. -/
theorem const_or_binOp (hvalue : y.kind.isValue = true) (hload : y.kind ≠ .ldLocal) :
    y.kind = .const ∨ y.kind = .binOp := by
  cases hkind : y.kind with
  | const => exact Or.inl rfl
  | binOp => exact Or.inr rfl
  | ldLocal => exact absurd hkind hload
  | _ =>
      rw [hkind] at hvalue
      cases hvalue

/-- The operands of a tree have been scanned when the tree is reached. -/
theorem subtree_mem_past (hg : g.Formed pending) (hsorted : n.Sorted g)
    (htrees : g.treesFrom 0 = past ++ y :: future) (hu : u ∈ y.subtrees) :
    u ∈ past ∧ g.parent u = some y := by
  have hy : y ∈ g.treesFrom 0 := by simp [htrees]
  obtain ⟨b, hb, hyb⟩ := List.mem_flatMap.mp hy
  obtain ⟨before, after, hsplit⟩ := List.append_of_mem hyb
  have hub : u ∈ g.treesOf b := by
    rw [hsplit]
    exact List.mem_append_left _ (hg.subtree_mem_before hsplit hu)
  have hutrees : u ∈ g.treesFrom 0 := List.mem_flatMap.mpr ⟨b, hb, hub⟩
  have hparent := hg.planted.parent_subtree y (hg.mem_allTrees hyb) u hu
  exact ⟨hsorted.mem_past_of_lt htrees hutrees (hsorted.parent_spec hg hutrees hparent).2.2,
    hparent⟩

/-- The second part of the scan of a tree. -/
theorem place_stocked (hg : g.Formed pending) (hy : y ∈ g.treesFrom 0)
    (hnamed : g.NamesVariables s.slots.length) (hcareful : fin.notes.Careful g (g.treesFrom 0))
    (hplacing : Placing g past y s) (h : Stowed g fin.notes past y H K s)
    (hcontents : (s.notes.tree y).restores.foldl (Contents.restore fin.notes) H = K)
    (hids : ∀ j ∈ s.active, ∀ u, (s.interval j).owner = .temp u → y.id ≠ u.id)
    (hrestores : ∀ r ∈ (s.notes.tree y).restores, s.slots.length ≤ r.interval)
    (hregs : ∀ u ∈ y.subtrees, 0 ≤ s.notes.reg u) (hplace : place g y s = .ok () s')
    (hslips : ∀ q ∈ placeRequests g y s, ¬ Slips y q) (hfin : s'.Continues fin)
    (hfixed : ∀ x ∈ y :: y.subtrees, fin.notes.tree x = s'.notes.tree x) :
    (∀ sp ∈ (fin.notes.tree y).spills, H.Holds sp.reg (fin.notes.content sp.interval)) ∧
      (y.kind = .ldLocal →
        ∀ need ∈ Contents.needs fin.notes y, need.2 ∈ H.prepare fin.notes y need.1) ∧
      (y.kind ≠ .ldLocal → (fin.notes.tree y).restores = (s.notes.tree y).restores) ∧
      Stocked g fin.notes (past ++ [y]) ((H.prepare fin.notes y).exec fin.notes y) s' := by
  have hmoves := place_moves hg.twins_eq hplace
  have hs' := (hmoves.orderly hplacing.orderly hregs).1
  have hcontinues := hmoves.extends.toContinues.trans hfin
  have hnote := hfixed y (by simp)
  have hprepare : (fin.notes.tree y).restores = (s.notes.tree y).restores →
      H.prepare fin.notes y = K := by
    intro hsame
    rw [Contents.prepare, hsame, hcontents]
  rcases place_cases hplace with ⟨hkind, hload⟩ | ⟨hkind, hstore⟩ |
      ⟨hload, hstore, ⟨p, hparent, htemp⟩ | ⟨hnone, rfl⟩⟩
  · have hspills := hcareful.load_spills y hy hkind
    obtain ⟨hneeds, hstocked⟩ := scanLoad_stocked hplacing h hcontents hids hrestores hkind hload
      hs' hslips (fun i hi => (content_of_slotOf hplacing.orderly.toOwned hnamed hcontinues hy
        (Or.inl hkind) hi).1) hnote (hnote ▸ hspills)
    refine ⟨?_, fun _ => hneeds, fun hne => absurd hkind hne, hstocked⟩
    rw [hspills]
    simp
  · obtain ⟨hsame, hspills, hstocked⟩ := scanStore_stocked hg.twins_eq hplacing h hkind hregs
      hstore (fun i hi => content_of_slotOf hplacing.orderly.toOwned hnamed hcontinues hy
        (Or.inr hkind) hi) hnote
      fun u hu => by rw [Notes.reg, Notes.reg, hfixed u (List.mem_cons_of_mem _ hu)]
    refine ⟨hspills, ?_, fun _ => hsame, (hprepare hsame).symm ▸ hstocked⟩
    intro hload
    rw [hload] at hkind
    cases hkind
  · obtain ⟨b, -, hyb⟩ := List.mem_flatMap.mp hy
    obtain ⟨hsame, hspills, hstocked⟩ := scanTemp_stocked hplacing h hids
      (const_or_binOp (hg.isValue_of_parent hyb hparent) hload) hregs hparent htemp hs' hslips hfin
      hnote
    exact ⟨hspills, fun hkind => absurd hkind hload, fun _ => hsame,
      (hprepare hsame).symm ▸ hstocked⟩
  · have hexec : K.exec fin.notes y = K := by
      obtain ⟨b, -, hyb⟩ := List.mem_flatMap.mp hy
      cases hkind : y.kind with
      | const =>
          obtain ⟨p, -, -, hparent⟩ := hg.exists_parent hyb (by rw [hkind]; rfl)
          rw [hnone] at hparent
          cases hparent
      | binOp =>
          obtain ⟨p, -, -, hparent⟩ := hg.exists_parent hyb (by rw [hkind]; rfl)
          rw [hnone] at hparent
          cases hparent
      | ldLocal => exact absurd hkind hload
      | stLocal => exact absurd hkind hstore
      | _ => rw [Contents.exec, hkind]
    have hsame := congrArg TreeNote.restores hnote
    rw [hprepare hsame, hexec]
    exact ⟨hnote ▸ h.spilled, fun hkind => absurd hkind hload, fun _ => hsame, h.toStocked⟩

/-! ## The scan of the trees of a block -/

/-- In `s` the trees `past` have been scanned, and with `y` the state `s'` is reached.  What
is noted so far stays as it is up to the state `fin`. -/
structure Scanned (g : Graph) (fin : Allocator) (past : List Tree) (y : Tree)
    (future : List Tree) (s s' : Allocator) : Prop where
  trees_eq : g.treesFrom 0 = past ++ y :: future
  rested : Rested g past s
  subtrees_reg : ∀ u ∈ y.subtrees, 0 ≤ s.notes.reg u
  scan_eq : scanTree g y s = .ok () s'
  continues : s'.Continues fin
  fixed : ∀ x ∈ past ++ [y], fin.notes.tree x = s'.notes.tree x

/-- The trees are scanned one after the other when `past` have been scanned. -/
inductive Course (g : Graph) (fin : Allocator) : List Tree → List Tree → Allocator → Prop
  | nil (past : List Tree) (s : Allocator) : Course g fin past [] s
  | cons {past : List Tree} {y : Tree} {future : List Tree} {s s' : Allocator}
      (hstep : Scanned g fin past y future s s') (hrest : Course g fin (past ++ [y]) future s') :
      Course g fin past (y :: future) s

/-- The trees of a function with one block. -/
theorem scanTrees_course {b : BlockId} {before ts : List Tree} (hg : g.Formed pending)
    (hblock : g.treesFrom 0 = g.treesOf b) (hscan : s.Scanning g before)
    (hrest : Rested g before s) (htrees : g.treesOf b = before ++ ts)
    (h : scanTrees g ts s = .ok () s') (hfin : s'.Continues fin)
    (hfixed : ∀ x ∈ g.treesOf b, fin.notes.tree x = s'.notes.tree x) :
    Course g fin before ts s := by
  have hwhole : g.treesFrom 0 = [] ++ (g.treesOf b ++ []) := by simpa using hblock
  induction ts generalizing s before with
  | nil => exact .nil before s
  | cons y ts ih =>
      obtain ⟨⟨⟩, s₁, hfirst, hlast⟩ := exists_of_bind_apply_eq_ok h
      have hall : g.treesFrom 0 = before ++ y :: ts := hblock.trans htrees
      have htrees₁ : g.treesOf b = (before ++ [y]) ++ ts := by simp [htrees]
      have hregs := Scanning.subtrees_reg hg hscan htrees
      have hscan₁ := scanTree_scanning hg hscan htrees hfirst
      have hrest₁ := (scanTree_rested hg hall hrest hregs hfirst).1
      have hext := (scanTrees_scanning hg hscan₁ htrees₁ hlast).2.toContinues
      refine .cons ⟨hall, hrest, hregs, hfirst, hext.trans hfin, ?_⟩
        (ih hscan₁ hrest₁ htrees₁ hlast)
      intro x hx
      rw [hfixed x (by rw [htrees₁]; exact List.mem_append_left _ hx)]
      exact (scanTrees_rested hg hwhole hscan₁ hrest₁ htrees₁ hlast).2 x hx

namespace Scanned

variable (h : Scanned g fin past y future s s')

include h

theorem mem_trees : y ∈ g.treesFrom 0 := by
  rw [h.trees_eq]
  simp

theorem frame (hg : g.Formed pending) : s.Extends s' :=
  (scanTree_moves hg.twins_eq h.scan_eq).extends

theorem sorted_fin (hg : g.Formed pending) : fin.notes.Sorted g :=
  h.rested.sorted.congr ((h.frame hg).toContinues.trans h.continues).index_eq

theorem fixed_self : fin.notes.tree y = s'.notes.tree y :=
  h.fixed y (by simp)

theorem rested' (hg : g.Formed pending) : Rested g (past ++ [y]) s' :=
  (scanTree_rested hg h.trees_eq h.rested h.subtrees_reg h.scan_eq).1

end Scanned

/-- The scan of a tree: what it spills and what it takes is in place, and every value is in
place afterwards. -/
theorem Scanned.stocked (hg : g.Formed pending) (h : Scanned g fin past y future s s')
    (hnamed : g.NamesVariables s.slots.length) (hcareful : fin.notes.Careful g (g.treesFrom 0))
    (hstocked : Stocked g fin.notes past H s) (hloads : LoadsHeld g fin.notes past H)
    (hslips : ∀ q ∈ requests g y s, ¬ Slips y q) :
    (∀ sp ∈ (fin.notes.tree y).spills, H.Holds sp.reg (fin.notes.content sp.interval)) ∧
      (∀ need ∈ Contents.needs fin.notes y, need.2 ∈ H.prepare fin.notes y need.1) ∧
      Stocked g fin.notes (past ++ [y]) ((H.prepare fin.notes y).exec fin.notes y) s' := by
  obtain ⟨htrees, hrest, hregs, hscan, hfin, hfixed⟩ := h
  obtain ⟨s₁, hprepare, hplace⟩ := scanTree_cases hscan
  have hrequests : requests g y s =
      recordedRequests g y { s with tree := some y } ++ placeRequests g y s₁ := by
    simp only [requests, hprepare]
  rw [hrequests] at hslips
  have hy : y ∈ g.treesFrom 0 := by simp [htrees]
  have hmoves := scanTree_moves hg.twins_eq hscan
  have hfirst : Moves g y .preparing _ { s with tree := some y } s₁ := prepare_moves hprepare
  have hturned : ({ s with tree := some y } : Allocator).Orderly g :=
    hrest.orderly.turn (some y) s.reuse
  have hregs₁ : ∀ u ∈ y.subtrees, 0 ≤ s₁.notes.reg u :=
    fun u hu => (hfirst.orderly hturned hregs).2 u (hregs u hu)
  have hcontinues := hmoves.extends.toContinues.trans hfin
  have hsorted : fin.notes.Sorted g := hrest.sorted.congr hcontinues.index_eq
  obtain ⟨done, s₂, hserving, hrefilled, ⟨hext₂, htree₂⟩, hdone, hplacing, hstowed⟩ :=
    prepare_stowed hg htrees hrest hregs hstocked
      (fun q hq => hslips q (List.mem_append_left _ hq)) hprepare
  have hpast : ∀ u ∈ y.subtrees, u ∈ past ∧ g.parent u = some y :=
    fun u hu => subtree_mem_past hg hrest.sorted htrees hu
  have hbehind : ∀ u ∈ y.subtrees, fin.notes.tree u = s'.notes.tree u ∧
      fin.notes.tree u = s₂.notes.tree u := by
    intro u hu
    have hlt := hrest.sorted.lt_of_mem_past htrees (hpast u hu).1
    have hfin' := hfixed u (List.mem_append_left _ (hpast u hu).1)
    refine ⟨hfin', ?_⟩
    rw [hfin', (hmoves.leaves hrest.orderly hregs).behind u hlt, ← htree₂ u]
    exact ((hfirst.leaves hturned hregs).behind u hlt).symm
  have hids : ∀ j ∈ s₁.active, ∀ u, (s₁.interval j).owner = .temp u → y.id ≠ u.id := by
    intro j hj u howner
    have hu := hplacing.temps.owner_mem j u (hplacing.orderly.active_lt j hj) howner
    exact id_ne_of_index_ne (Nat.ne_of_gt (hrest.sorted.lt_of_mem_past htrees hu))
  have hrestores : ∀ r ∈ (s₁.notes.tree y).restores, s₁.slots.length ≤ r.interval := by
    intro r hr
    obtain ⟨u, howner, -⟩ := hrefilled.done_taken r (hdone ▸ hr)
    by_contra hlt
    rw [hext₂.slots_eq, Nat.not_le] at hlt
    rw [hserving.orderly.owner_slot _ hlt] at howner
    cases howner
  obtain ⟨hspills, hload, hsame, hstocked'⟩ := place_stocked hg hy
    (hfirst.extends.slots_eq ▸ hnamed) hcareful hplacing hstowed (by rw [hdone]) hids hrestores
    hregs₁ hplace (fun q hq => hslips q (List.mem_append_right _ hq)) hfin (by
      intro x hx
      rcases List.mem_cons.mp hx with rfl | hx
      · exact hfixed x (by simp)
      · exact (hbehind x hx).1)
  have howners : ∀ i : Nat, i < s₂.notes.intervalCount →
      (fin.notes.interval i).owner = (s₂.interval i).owner := fun i hi =>
    ((hext₂.trans (place_moves hg.twins_eq hplace).extends).toContinues.trans hfin).owner_eq hi
  refine ⟨hspills, ?_, hstocked'⟩
  by_cases hkind : y.kind = .ldLocal
  · exact hload hkind
  intro need hneed
  obtain ⟨u, hu, rfl⟩ := Contents.mem_needs hkind hneed
  obtain ⟨hupast, hparent⟩ := hpast u hu
  have hutrees := Graph.mem_treesFrom_of_past htrees hupast
  by_cases hukind : u.kind = .ldLocal
  · exact hloads.operand hsorted hcareful hg htrees hutrees hukind hparent
  · obtain ⟨b, -, hub⟩ := List.mem_flatMap.mp hutrees
    have hreg : ∀ v ∈ y.subtrees, s₂.notes.reg v = fin.notes.reg v := by
      intro v hv
      rw [Notes.reg, Notes.reg, (hbehind v hv).2]
    have hback : ∀ r ∈ done, ∀ v, (fin.notes.interval r.interval).owner = .temp v →
        r.reg = some (s₂.notes.reg v) := by
      intro r hr v howner
      have hlt := hserving.orderly.active_lt _ (hrefilled.done_reg r hr).1
      obtain ⟨w, howner', hparent'⟩ := hrefilled.done_taken r hr
      obtain rfl : v = w := Owner.temp.inj (howner.symm.trans ((howners _ hlt).trans howner'))
      have hv : v ∈ g.treesFrom 0 := by
        rw [htrees]
        exact List.mem_append_left _ (hserving.temps.owner_mem _ v hlt howner')
      rw [hreg v (hrest.sorted.parent_spec hg hv hparent').2.1]
      exact hcareful.restore_reg y hy r (by rw [hsame hkind, hdone]; exact hr) v
        (by rw [howner]; rfl)
    rw [Contents.prepare, hsame hkind, hdone, ← hreg u hu]
    exact hrefilled.operand hg htrees hserving howners hback hutrees hparent
      (const_or_binOp (hg.isValue_of_parent hub hparent) hukind)

/-- Every value is in place along the scan of the trees. -/
theorem Course.inPlace {ts : List Tree} (h : Course g fin past ts s) (hg : g.Formed pending)
    (hnamed : g.NamesVariables s.slots.length) (hcareful : fin.notes.Careful g (g.treesFrom 0))
    (hstocked : Stocked g fin.notes past H s) (hloads : LoadsHeld g fin.notes past H)
    (hslips : ∀ x ∈ traceTrees g ts s, ¬ x.Slips) : InPlace fin.notes H ts := by
  induction h generalizing H with
  | nil => exact trivial
  | @cons past y future s s' hstep _ ih =>
      rw [traceTrees, hstep.scan_eq] at hslips
      obtain ⟨hspills, hneeds, hstocked'⟩ := hstep.stocked hg hnamed hcareful hstocked hloads
        fun q hq hslip => hslips _ (List.mem_cons_self ..) ⟨q, hq, hslip⟩
      refine ⟨hspills, hneeds, ?_⟩
      exact ih ((hstep.frame hg).slots_eq ▸ hnamed) hstocked'
        (hloads.step (hstep.sorted_fin hg) hcareful hg hstep.trees_eq)
        fun x hx => hslips x (List.mem_cons_of_mem _ hx)

end Alloc
end LinearScan
