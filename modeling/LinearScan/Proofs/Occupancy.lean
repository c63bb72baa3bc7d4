import LinearScan.Proofs.Keeping
import LinearScan.Proofs.RegisterMachine

/-!
# What the registers hold during the scan

The state of the allocator is compared with what the registers hold when the trees scanned so
far are run with their notes.  As long as no request slips, every active interval has its
value in the register in which it lives.  So what is spilled is in the register from which it
is spilled, and a temporary is found by the tree that takes it, in the register in which it
was produced or into which it was brought back.
-/

namespace LinearScan

open Allocator

namespace Contents

variable {n : Notes} {H K : Contents} {rs : List Restore} {r : Restore} {reg : Int} {c : Content}

/-- Restores into other registers. -/
theorem restores_of_ne (h : ∀ r ∈ rs, r.reg ≠ some reg) :
    rs.foldl (restore n) H reg = H reg := by
  induction rs generalizing H with
  | nil => rfl
  | cons r rs ih =>
      rw [List.foldl_cons, ih fun q hq => h q (by simp [hq]), restore]
      cases hr : r.reg with
      | none => rfl
      | some other =>
          have hne : reg ≠ other := by
            rintro rfl
            exact h r (by simp) hr
          exact Function.update_of_ne hne _ _

end Contents

namespace Alloc

variable {g : Graph} {pending past future : List Tree} {t y u p : Tree} {n : Notes}
  {H K K' : Contents} {done rs : List Restore} {s s₁ s' fin : Allocator} {i j : Nat}

/-! ## What is noted at the tree that asks for a register -/

/-- A spill that is noted when `i` comes into a register is that of an interval which was
active and is used later, if at all. -/
theorem Activated.spills_cases (h : Activated g t i s s') {sp : Spill}
    (hsp : sp ∈ (s'.notes.tree t).spills) :
    sp ∈ (s.notes.tree t).spills ∨
      sp.interval ∈ s.active ∧ sp.reg = (s.interval sp.interval).liveIn ∧
        (s.notes.nextUse sp.interval (s.notes.index t) = none ∨
          ∃ use, s.notes.nextUse sp.interval (s.notes.index t) = some use ∧
            s.notes.index t < s.notes.index use) := by
  cases h with
  | already => exact Or.inl hsp
  | free number filled n hlive hchoose hreload hfilled =>
      left
      rcases hreload.notes_cases with rfl | ⟨-, rfl⟩
      · exact hsp
      · rw [Notes.tree_place, Notes.addRestore, Notes.tree_modifyTree, if_pos rfl] at hsp
        exact hsp
  | evicted use v reg k s₁ hlive hchoose huse hvictim hspill hk =>
      obtain ⟨back, k', rest, hv, -, -, -, rfl⟩ := spill_cases hspill
      simp only [Notes.tree_place, spills_spillNotes, if_true, List.mem_append,
        List.mem_singleton] at hsp
      refine hsp.imp_right ?_
      rintro rfl
      exact ⟨mem_active_of_victim hvictim, hv.symm, nextUse_later_of_victim huse hvictim⟩

/-- What is spilled to make room at a tree is restored behind the tree. -/
theorem restores_of_victim {use : Tree} {v : IntervalId} {reg : Int}
    (huse : s.notes.nextUse i (s.notes.index t) = some use)
    (hvictim : s.victim (s.notes.index t) (s.notes.index use) none s.active = some v)
    (hspill : spill g t v s = .ok reg s₁) :
    (s₁.notes.tree t).restores = (s.notes.tree t).restores := by
  obtain ⟨back, k, rest, -, hback, -, -, rfl⟩ := spill_cases hspill
  rw [restores_spillNotes, if_neg]
  intro hid
  split at hback
  · obtain ⟨rfl, -⟩ := hback
    obtain ⟨next, hnext, hnextid⟩ := Option.map_eq_some_iff.mp hid
    rcases nextUse_later_of_victim huse hvictim with hnone | ⟨next', hnext', hlater⟩
    · rw [hnext] at hnone
      cases hnone
    · rw [hnext] at hnext'
      injection hnext' with hnext'
      subst hnext'
      have hindex : s.notes.index next = s.notes.index t := by
        rw [Notes.index, Notes.index, Notes.tree, Notes.tree, hnextid]
      omega
  · rw [hback] at hid
    cases hid

/-- No restore is noted when `i` comes into a register if one is noted already, or if `i` is
the value that is produced. -/
theorem Activated.restores_eq (hs : s.Orderly g) (hi : i < s.notes.intervalCount)
    (h : Activated g t i s s')
    (hnoted : (s.interval i).owner.isResultOf t = true ∨
      ∃ r ∈ (s.notes.tree t).restores, r.interval = i) :
    (s'.notes.tree t).restores = (s.notes.tree t).restores := by
  cases h with
  | already => rfl
  | free number filled n hlive hchoose hreload hfilled =>
      rw [Notes.tree_place, hreload.notes_eq hs hi hnoted]
  | evicted use v reg k s₁ hlive hchoose huse hvictim hspill hk =>
      rw [Notes.tree_place]
      exact restores_of_victim huse hvictim hspill

/-- No two active intervals live in one register. -/
theorem eq_of_liveIn_eq (hs : s.Orderly g) (hfiled : Filed s.registers s.active s.notes)
    (hi : i ∈ s.active) (hj : j ∈ s.active)
    (heq : (s.interval i).liveIn = (s.interval j).liveIn) : i = j := by
  obtain ⟨k, hk⟩ := exists_liveIn_natCast hs hi
  have hik := (hfiled k i).mpr ⟨hi, hk⟩
  have hjk := (hfiled k j).mpr ⟨hj, heq.symm.trans hk⟩
  rw [hik] at hjk
  injection hjk with hjk
  injection hjk

/-- A temporary that the tree `y` takes is not spilled at `y`. -/
theorem not_taken_of_later (hs : s.Owned g) (hi : i < s.notes.intervalCount)
    (hlater : s.notes.nextUse i (s.notes.index y) = none ∨
      ∃ use, s.notes.nextUse i (s.notes.index y) = some use ∧
        s.notes.index y < s.notes.index use) :
    ∀ u, (s.interval i).owner = .temp u → g.parent u ≠ some y := by
  intro u howner hparent
  rw [nextUse_temp hs hi howner hparent (Nat.le_refl _)] at hlater
  rcases hlater with hnone | ⟨use, huse, hlt⟩
  · cases hnone
  · injection huse with huse
    subst huse
    exact Nat.lt_irrefl _ hlt

/-! ## Where the values are -/

/-- In `s` the trees `past` have been scanned, and the registers hold `H`: every active
interval has its value in the register in which it lives, and a temporary that is still to
be taken is where it was produced. -/
structure Stocked (g : Graph) (n : Notes) (past : List Tree) (H : Contents) (s : Allocator) :
    Prop where
  filed : Filed s.registers s.active s.notes
  housed : ∀ i ∈ s.active, H.Holds (s.interval i).liveIn (n.content i)
  home : ∀ i ∈ s.active, ∀ u p, (s.interval i).owner = .temp u → g.parent u = some p →
    p ∉ past → (s.interval i).liveIn = some (s.notes.reg u)

/-- In `s` the tree `y` is scanned.  Before it the registers held `H`, and with the restores
that have been carried out they hold `K`. -/
structure Stowed (g : Graph) (n : Notes) (past : List Tree) (y : Tree) (H K : Contents)
    (s : Allocator) : Prop extends Stocked g n (past ++ [y]) K s where
  untaken : ∀ i ∈ s.active, (∀ u, (s.interval i).owner = .temp u → g.parent u ≠ some y) →
    H.Holds (s.interval i).liveIn (n.content i)
  spilled : ∀ sp ∈ (s.notes.tree y).spills, H.Holds sp.reg (n.content sp.interval)

/-- In `s` the restores `done` at the tree `y` have been carried out. -/
structure Refilled (g : Graph) (n : Notes) (past : List Tree) (y : Tree) (H : Contents)
    (done : List Restore) (s : Allocator) : Prop
    extends Stowed g n past y H (done.foldl (Contents.restore n) H) s where
  operand_home : ∀ i ∈ s.active, ∀ u, (s.interval i).owner = .temp u → g.parent u = some y →
    (s.interval i).liveIn = some (s.notes.reg u) ∨ i ∈ done.map Restore.interval
  done_reg : ∀ r ∈ done, r.interval ∈ s.active ∧ r.reg = (s.interval r.interval).liveIn
  done_taken : ∀ r ∈ done, ∃ u, (s.interval r.interval).owner = .temp u ∧ g.parent u = some y

/-- The interval `j` is in `s'` where it was in `s`, and so is the tree that produced it. -/
structure Unmoved (j : IntervalId) (s s' : Allocator) : Prop where
  active : j ∈ s.active
  liveIn_eq : (s'.interval j).liveIn = (s.interval j).liveIn
  owner_eq : (s'.interval j).owner = (s.interval j).owner
  reg_eq : ∀ u, (s.interval j).owner = .temp u → s'.notes.reg u = s.notes.reg u

/-- Intervals leave their registers. -/
theorem Stocked.shrink (h : Stocked g n past H s) (hfiled : Filed s'.registers s'.active s'.notes)
    (hactive : ∀ i ∈ s'.active, Unmoved i s s') : Stocked g n past H s' where
  filed := hfiled
  housed i hi := by
    rw [(hactive i hi).liveIn_eq]
    exact h.housed i (hactive i hi).active
  home i hi u p howner hparent hp := by
    have howner' := (hactive i hi).owner_eq.symm.trans howner
    rw [(hactive i hi).liveIn_eq, (hactive i hi).reg_eq u howner']
    exact h.home i (hactive i hi).active u p howner' hparent hp

/-- The interval `i` is in the register `reg` now, whose contents have changed. -/
theorem Stocked.seat (h : Stocked g n past H s) (hs : s'.Orderly g)
    (hfiled : Filed s'.registers s'.active s'.notes) (hi : i ∈ s'.active) {reg : Int}
    (hlive : (s'.interval i).liveIn = some reg)
    (hother : ∀ j ∈ s'.active, j ≠ i → Unmoved j s s')
    (hself : n.content i ∈ K reg) (hrest : ∀ r, r ≠ reg → K r = H r)
    (hhome : ∀ u p, (s'.interval i).owner = .temp u → g.parent u = some p → p ∉ past →
      reg = s'.notes.reg u) : Stocked g n past K s' where
  filed := hfiled
  housed j hj := by
    by_cases hji : j = i
    · subst hji
      exact ⟨reg, hlive, hself⟩
    · have hunmoved := hother j hj hji
      obtain ⟨r, hr, hc⟩ := h.housed j hunmoved.active
      have hne : r ≠ reg := by
        rintro rfl
        exact hji (eq_of_liveIn_eq hs hfiled hj hi (by rw [hunmoved.liveIn_eq, hr, hlive]))
      exact ⟨r, hunmoved.liveIn_eq.trans hr, (hrest r hne).symm ▸ hc⟩
  home j hj u p howner hparent hp := by
    by_cases hji : j = i
    · subst hji
      rw [hlive, hhome u p howner hparent hp]
    · have hunmoved := hother j hj hji
      have howner' := hunmoved.owner_eq.symm.trans howner
      rw [hunmoved.liveIn_eq, hunmoved.reg_eq u howner']
      exact h.home j hunmoved.active u p howner' hparent hp

/-- Registers are known to hold more. -/
theorem Stocked.widen (h : Stocked g n past H s) (hsub : ∀ r, H r ⊆ K r) :
    Stocked g n past K s where
  filed := h.filed
  housed i hi := by
    obtain ⟨r, hr, hc⟩ := h.housed i hi
    exact ⟨r, hr, hsub r hc⟩
  home := h.home

theorem Stowed.shrink (h : Stowed g n past y H K s)
    (hfiled : Filed s'.registers s'.active s'.notes)
    (hactive : ∀ i ∈ s'.active, Unmoved i s s')
    (hspills : (s'.notes.tree y).spills = (s.notes.tree y).spills) :
    Stowed g n past y H K s' where
  toStocked := h.toStocked.shrink hfiled hactive
  untaken i hi hnot := by
    rw [(hactive i hi).liveIn_eq]
    exact h.untaken i (hactive i hi).active fun u hu => hnot u ((hactive i hi).owner_eq.trans hu)
  spilled sp hsp := by
    rw [hspills] at hsp
    exact h.spilled sp hsp

/-- What a release of registers leaves. -/
theorem release_unmoved (hs : s.Orderly g) (hfiled : Filed s.registers s.active s.notes)
    (h : release t s = .ok () s') :
    Filed s'.registers s'.active s'.notes ∧ (∀ i ∈ s'.active, Unmoved i s s') ∧
      ∀ x, s'.notes.tree x = s.notes.tree x := by
  obtain ⟨kept, s₂, hsifted, rfl⟩ := release_cases h
  have hreleased := release_filed hsifted hs hfiled
  have htree := hsifted.tree_eq
  refine ⟨hreleased, ?_, htree⟩
  intro i hi
  have hkept : i ∈ kept := hi
  rw [hsifted.kept_eq, List.mem_filter] at hkept
  have hstayed : Stayed i s { s₂ with active := kept } :=
    hsifted.stayed fun _ => by simpa using hkept.2
  exact ⟨hkept.1, hstayed.liveIn_eq, hsifted.extends.owner_eq (hs.active_lt i hkept.1),
    fun u _ => by rw [Notes.reg, Notes.reg, htree]⟩

/-- When `i` comes into a register, the other intervals that are active stay where they
were. -/
theorem Activated.unmoved (hs : s.Orderly g) (h : Activated g t i s s') (hji : j ≠ i)
    (hj : j ∈ s'.active) : Unmoved j s s' := by
  rcases h.fate hs (Ne.symm hji) with hstayed | ⟨hevicted, -⟩
  · exact ⟨hstayed.active_iff.mp hj, hstayed.liveIn_eq, h.owner_eq j, fun u _ => h.reg_eq u⟩
  · exact absurd hj hevicted.not_active

/-! ## Bringing operands back -/

/-- What is spilled for an interval that comes into a register is where it is spilled from. -/
theorem Stowed.spilled_of_activated (h : Stowed g n past y H K s) (hs : s.Orderly g)
    (hactivated : Activated g y i s s₁) {sp : Spill} (hsp : sp ∈ (s₁.notes.tree y).spills) :
    H.Holds sp.reg (n.content sp.interval) := by
  rcases hactivated.spills_cases hsp with hsp | ⟨hmem, hspreg, hlater⟩
  · exact h.spilled sp hsp
  · rw [hspreg]
    exact h.untaken _ hmem (not_taken_of_later hs.toOwned (hs.active_lt _ hmem) hlater)

/-- Before the first restore. -/
theorem Stocked.refilled (h : Stocked g n past H s) (hy : y ∉ past)
    (hspills : (s.notes.tree y).spills = []) : Refilled g n past y H [] s where
  filed := h.filed
  housed := h.housed
  home i hi u p howner hparent hp :=
    h.home i hi u p howner hparent fun hmem => hp (List.mem_append_left _ hmem)
  untaken i hi _ := h.housed i hi
  spilled sp hsp := by
    rw [hspills] at hsp
    cases hsp
  operand_home i hi u howner hparent := Or.inl (h.home i hi u y howner hparent hy)
  done_reg r hr := by cases hr
  done_taken r hr := by cases hr

theorem Refilled.carry (hg : g.Formed pending) (htrees : g.treesFrom 0 = past ++ y :: future)
    {todo : List IntervalId}
    (hserving : Serving g past y (done.map Restore.interval) (i :: todo) s)
    (h : Refilled g n past y H done s) (hslips : ¬ Slips y (s, i))
    (hactivated : Activated g y i s s₁) :
    Refilled g n past y H (done ++ [⟨(s₁.interval i).liveIn, i⟩]) s₁ := by
  obtain ⟨hlt, hlive, u, howner, hparent⟩ := hserving.next hg htrees
  have hs := hserving.orderly
  have hs₁ := hactivated.orderly hs hlt
  have hactive := hactivated.mem_active hlive
  obtain ⟨reg, hreg⟩ := hs₁.active_live i hactive
  have hself : ∀ v p, (s₁.interval i).owner = .temp v → g.parent v = some p → p = y := by
    intro v p howner' hparent'
    rw [hactivated.owner_eq, howner] at howner'
    injection howner' with howner'
    rw [← howner', hparent] at hparent'
    injection hparent' with hparent'
    exact hparent'.symm
  have hother : ∀ j ∈ s₁.active, j ≠ i → Unmoved j s s₁ :=
    fun j hj hji => hactivated.unmoved hs hji hj
  -- An interval that is back is taken by `y`, and so it is not spilled for another one.
  have hback : ∀ r ∈ done, Stayed r.interval s s₁ := by
    intro r hr
    obtain ⟨hmem, -⟩ := h.done_reg r hr
    obtain ⟨v, howner', hparent'⟩ := h.done_taken r hr
    have hri : i ≠ r.interval := by
      rintro rfl
      exact not_mem_active hs hlive hmem
    rcases hactivated.fate hs hri with hstayed | ⟨-, hlater⟩
    · exact hstayed
    · exact absurd hparent'
        (not_taken_of_later hs.toOwned (hs.active_lt _ hmem) hlater v howner')
  have hcontents : (done ++ [(⟨(s₁.interval i).liveIn, i⟩ : Restore)]).foldl
      (Contents.restore n) H =
      Function.update (done.foldl (Contents.restore n) H) reg [n.content i] := by
    rw [List.foldl_append, hreg]
    rfl
  constructor
  · constructor
    · rw [hcontents]
      refine h.toStocked.seat hs₁ (hactivated.filed hs hslips h.filed) hactive hreg hother (by simp)
        (fun r hr => Function.update_of_ne hr _ _) ?_
      intro v p howner' hparent' hp
      exact absurd (by simp [hself v p howner' hparent']) hp
    · intro j hj hnot
      have hji : j ≠ i := by
        rintro rfl
        exact hnot u (by rw [hactivated.owner_eq, howner]) hparent
      rw [(hother j hj hji).liveIn_eq]
      exact h.untaken j (hother j hj hji).active fun v hv =>
        hnot v (by rw [hactivated.owner_eq, hv])
    · exact fun sp hsp => h.spilled_of_activated hs hactivated hsp
  · intro j hj v howner' hparent'
    rw [hactivated.owner_eq] at howner'
    by_cases hji : j = i
    · right
      simp [hji]
    · rw [(hother j hj hji).liveIn_eq, hactivated.reg_eq]
      refine (h.operand_home j (hother j hj hji).active v howner' hparent').imp_right
        fun hdone => ?_
      rw [List.map_append]
      exact List.mem_append_left _ hdone
  · intro r hr
    rcases List.mem_append.mp hr with hr | hr
    · obtain ⟨hmem, hrreg⟩ := h.done_reg r hr
      exact ⟨(hback r hr).active_iff.mpr hmem, hrreg.trans (hback r hr).liveIn_eq.symm⟩
    · rw [List.mem_singleton.mp hr]
      exact ⟨hactive, rfl⟩
  · intro r hr
    rcases List.mem_append.mp hr with hr | hr
    · rw [hactivated.owner_eq]
      exact h.done_taken r hr
    · rw [List.mem_singleton.mp hr, hactivated.owner_eq]
      exact ⟨u, howner, hparent⟩

/-- The register that was found for a restore is noted. -/
theorem Refilled.noteRestored (h : Refilled g n past y H done s) (k : Nat) (reg : Option Int) :
    Refilled g n past y H done { s with notes := noteRestored s.notes y k reg } := by
  have hreg : ∀ x, (Alloc.noteRestored s.notes y k reg).reg x = s.notes.reg x := by
    intro x
    rw [Notes.reg, Alloc.noteRestored, Notes.tree_modifyTree]
    split <;> rfl
  have hspills : ((Alloc.noteRestored s.notes y k reg).tree y).spills =
      (s.notes.tree y).spills := by
    rw [Alloc.noteRestored, Notes.tree_modifyTree, if_pos rfl]
  constructor
  · constructor
    · refine ⟨h.filed, h.housed, ?_⟩
      intro i hi u p howner hparent hp
      rw [hreg]
      exact h.home i hi u p howner hparent hp
    · exact h.untaken
    · intro sp hsp
      rw [hspills] at hsp
      exact h.spilled sp hsp
  · intro i hi u howner hparent
    rw [hreg]
    exact h.operand_home i hi u howner hparent
  · exact h.done_reg
  · exact h.done_taken

theorem modify_append_cons (f : Restore → Restore) (done rs : List Restore) (r : Restore) :
    (done ++ r :: rs).modify done.length f = done ++ f r :: rs := by
  induction done with
  | nil => rfl
  | cons q done ih => simpa using ih

/-- All restores that are noted at a tree are carried out. -/
theorem carryRestores_refilled (hg : g.Formed pending)
    (htrees : g.treesFrom 0 = past ++ y :: future)
    (hserving : Serving g past y (done.map Restore.interval) (rs.map Restore.interval) s)
    (h : Refilled g n past y H done s) (hrestores : (s.notes.tree y).restores = done ++ rs)
    (hslips : ∀ q ∈ restoreRequests g y done.length rs s, ¬ Slips y q)
    (hcarry : carryRestores g y done.length rs s = .ok () s') :
    ∃ done', Serving g past y (done'.map Restore.interval) [] s' ∧
      Refilled g n past y H done' s' ∧ (s'.notes.tree y).restores = done' := by
  induction rs generalizing s done with
  | nil =>
      obtain ⟨-, rfl⟩ := pure_cases hcarry
      rw [List.append_nil] at hrestores
      exact ⟨done, hserving, h, hrestores⟩
  | cons r rs ih =>
      obtain ⟨⟨⟩, s₂, hfirst, hrest⟩ := exists_of_bind_apply_eq_ok hcarry
      rw [restoreRequests, hfirst] at hslips
      obtain ⟨hlive, s₁, hactivated, rfl⟩ := carryRestore_cases hfirst
      have hslip := hslips _ (List.mem_cons_self ..)
      obtain ⟨hlt, -, -⟩ := hserving.next hg htrees
      have hsame := hactivated.restores_eq hserving.orderly hlt
        (Or.inr ⟨r, by simp [hrestores], rfl⟩)
      have hserving₁ := (hserving.activated hg htrees hactivated).noteRestored done.length
        (s₁.interval r.interval).liveIn
      have hrefilled := (h.carry hg htrees hserving hslip hactivated).noteRestored done.length
        (s₁.interval r.interval).liveIn
      refine ih ?_ hrefilled ?_ ?_ ?_
      · simpa using hserving₁
      · rw [noteRestored, Notes.tree_modifyTree, if_pos rfl]
        simp only [hsame, hrestores, modify_append_cons]
        simp
      · intro q hq
        refine hslips q (List.mem_cons_of_mem _ ?_)
        simpa using hq
      · simpa using hrest

/-- An operand that is a temporary is where it was produced, if it was not brought back into
another register. -/
theorem Refilled.operand (hg : g.Formed pending) (htrees : g.treesFrom 0 = past ++ y :: future)
    (hserving : Serving g past y (done.map Restore.interval) [] s)
    (h : Refilled g n past y H done s)
    (hn : ∀ i : Nat, i < s.notes.intervalCount → (n.interval i).owner = (s.interval i).owner)
    (hback : ∀ r ∈ done, ∀ u, (n.interval r.interval).owner = .temp u →
      r.reg = some (s.notes.reg u))
    (hu : u ∈ g.treesFrom 0) (hparent : g.parent u = some y)
    (hkind : u.kind = .const ∨ u.kind = .binOp) :
    .result u.id ∈ done.foldl (Contents.restore n) H (s.notes.reg u) := by
  obtain ⟨-, -, hlt⟩ := hserving.sorted.parent_spec hg hu hparent
  obtain ⟨i, hi, howner⟩ := hserving.temps.created u
    (hserving.sorted.mem_past_of_lt htrees hu hlt) hkind
  have hactive : i ∈ s.active :=
    (hserving.operands i u hi howner hparent).resolve_right (by simp)
  have hcontent : n.content i = .result u.id := by
    rw [Notes.content, hn i hi, howner]
    rfl
  obtain ⟨reg, hreg, hc⟩ := h.housed i hactive
  rw [hcontent] at hc
  rcases h.operand_home i hactive u howner hparent with hhome | hdone
  · rw [hreg] at hhome
    injection hhome with hhome
    exact hhome ▸ hc
  · obtain ⟨r, hr, hri⟩ := List.mem_map.mp hdone
    have hrreg := (h.done_reg r hr).2
    rw [hback r hr u (by rw [hri, hn i hi, howner]), hri, hreg] at hrreg
    injection hrreg with hrreg
    exact hrreg ▸ hc

/-! ## Giving the tree its register -/

section WithReg

variable {x : Tree}

theorem interval_withReg : (withReg n t i).interval j = n.interval j := by
  rw [withReg]
  split <;> rfl

theorem spills_withReg : ((withReg n t i).tree x).spills = (n.tree x).spills := by
  rw [withReg]
  split
  · rw [Notes.tree_modifyTree]
    split <;> rfl
  · rfl

theorem restores_withReg : ((withReg n t i).tree x).restores = (n.tree x).restores := by
  rw [withReg]
  split
  · rw [Notes.tree_modifyTree]
    split <;> rfl
  · rfl

theorem reg_withReg_of_ne (hid : t.id ≠ x.id) : (withReg n t i).reg x = n.reg x := by
  rw [withReg]
  split
  · rw [Notes.reg, Notes.tree_modifyTree, if_neg hid]
    rfl
  · rfl

end WithReg

/-- A variable that is read comes into a register with a restore, if it was in none and no
interval is spilled. -/
theorem Activated.reload_cases (hs : s.Orderly g) (hi : i < s.slots.length)
    (h : Activated g t i s s') (hspills : (s'.notes.tree t).spills = [])
    (hrestores : ∀ r ∈ (s.notes.tree t).restores, s.slots.length ≤ r.interval) :
    s' = s ∨ i ∈ s'.active ∧ (s'.notes.tree t).restores =
      (s.notes.tree t).restores ++ [⟨(s'.interval i).liveIn, i⟩] := by
  cases h with
  | already => exact Or.inl rfl
  | free number filled n hlive hchoose hreload hfilled =>
      right
      refine ⟨by simp, ?_⟩
      rw [Allocator.interval, Notes.liveIn_place_self, Notes.tree_place]
      have howner := hs.owner_slot i hi
      have hcount := Nat.lt_of_lt_of_le hi hs.slots_le
      rw [Reloaded, ← Allocator.interval, howner, Owner.isResultOf, if_neg (by simp)] at hreload
      obtain ⟨found, hfound, rfl⟩ := hreload
      cases found with
      | true =>
          obtain ⟨r, hr, hri⟩ :=
            (restoresAlike_cases hs.identified hcount (hs.restore_lt t) hfound).mp rfl
          exact absurd (hrestores r hr) (Nat.not_le_of_lt (hri ▸ hi))
      | false =>
          rw [if_neg (by simp), restores_addRestore, if_pos rfl]
  | evicted use v reg k s₁ hlive hchoose huse hvictim hspill hk =>
      obtain ⟨back, k', rest, -, -, -, -, rfl⟩ := spill_cases hspill
      simp [Notes.tree_place, spills_spillNotes] at hspills

/-- The registers in which intervals live and were produced, when `y` gets its register. -/
theorem Unmoved.withReg (h : Unmoved j s s₁)
    (hid : ∀ u, (s.interval j).owner = .temp u → y.id ≠ u.id) :
    Unmoved j s { s₁ with notes := withReg s₁.notes y i } where
  active := h.active
  liveIn_eq := by
    rw [Allocator.interval, interval_withReg]
    exact h.liveIn_eq
  owner_eq := by
    rw [Allocator.interval, interval_withReg]
    exact h.owner_eq
  reg_eq u hu := (reg_withReg_of_ne (hid u hu)).trans (h.reg_eq u hu)

theorem Filed.withReg (h : Filed s.registers s.active s.notes) :
    Filed s.registers s.active (withReg s.notes y i) :=
  h.congr (fun _ => rfl) (fun _ => Iff.rfl) fun _ _ => by rw [interval_withReg]

namespace Stowed

section

variable (h : Stowed g n past y H K s) (hs : s.Orderly g)
include h hs

/-- The interval `i` is alone in the register into which it comes at `y`. -/
theorem seated (hids : ∀ j ∈ s.active, ∀ u, (s.interval j).owner = .temp u → y.id ≠ u.id)
    (hslips : ¬ Slips y (s, i)) (hactivated : Activated g y i s s₁)
    (hs' : ({ s₁ with notes := withReg s₁.notes y i } : Allocator).Orderly g)
    (hactive : i ∈ s₁.active) {reg : Int} (hreg : (s₁.interval i).liveIn = some reg)
    (hhome : ∀ u, (s.interval i).owner = .temp u → reg = (withReg s₁.notes y i).reg u) :
    Stocked g n (past ++ [y]) (Function.update K reg [n.content i])
      { s₁ with notes := withReg s₁.notes y i } := by
  have hfiled : Filed s₁.registers s₁.active (Alloc.withReg s₁.notes y i) :=
    Filed.withReg (hactivated.filed hs hslips h.filed)
  refine h.toStocked.seat hs' hfiled hactive ?_ ?_ (by simp)
    (fun r hr => Function.update_of_ne hr _ _) ?_
  · rw [Allocator.interval, interval_withReg]
    exact hreg
  · intro j hj hji
    have hunmoved := hactivated.unmoved hs hji hj
    exact hunmoved.withReg (hids j hunmoved.active)
  · intro u p howner _ _
    rw [Allocator.interval, interval_withReg, ← Allocator.interval, hactivated.owner_eq] at howner
    exact hhome u howner

/-- A load finds the variable in its register. -/
theorem load (hcontents : (s.notes.tree y).restores.foldl (Contents.restore n) H = K)
    (hids : ∀ j ∈ s.active, ∀ u, (s.interval j).owner = .temp u → y.id ≠ u.id)
    (hrestores : ∀ r ∈ (s.notes.tree y).restores, s.slots.length ≤ r.interval)
    (hi : i < s.slots.length) (hslips : ¬ Slips y (s, i)) (hactivated : Activated g y i s s₁)
    (hs' : ({ s₁ with notes := withReg s₁.notes y i } : Allocator).Orderly g)
    (hspills : (s₁.notes.tree y).spills = [])
    (hcontents' : (s₁.notes.tree y).restores.foldl (Contents.restore n) H = K') :
    n.content i ∈ K' ((withReg s₁.notes y i).reg y) ∧
      Stocked g n (past ++ [y]) K' { s₁ with notes := withReg s₁.notes y i } := by
  obtain ⟨reg, hreg⟩ := hactivated.exists_liveIn
  rw [reg_withReg hreg]
  rcases hactivated.reload_cases hs hi hspills hrestores with rfl | ⟨hactive, hreload⟩
  · obtain rfl : K = K' := hcontents.symm.trans hcontents'
    have hactive := hs.slot_active i reg hi hreg
    obtain ⟨r, hr, hc⟩ := h.housed i hactive
    rw [hreg] at hr
    injection hr with hr
    have hfiled : Filed s₁.registers s₁.active (Alloc.withReg s₁.notes y i) :=
      Filed.withReg h.filed
    refine ⟨hr ▸ hc, h.toStocked.shrink hfiled fun j hj => ?_⟩
    exact Unmoved.withReg ⟨hj, rfl, rfl, fun _ _ => rfl⟩ (hids j hj)
  · have hK' : K' = Function.update K reg [n.content i] := by
      rw [← hcontents', hreload, List.foldl_append, hcontents, hreg]
      rfl
    rw [hK']
    refine ⟨by simp, h.seated hs hids hslips hactivated hs' hactive hreg ?_⟩
    intro u howner
    rw [hs.owner_slot i hi] at howner
    cases howner

/-- The interval of a new result is there. -/
theorem create (p : Tree) :
    Stowed g n past y H K { s with notes := s.notes.addInterval (tempOf s.notes y p) } := by
  have hold : ∀ j ∈ s.active, (s.notes.addInterval (tempOf s.notes y p)).interval j =
      s.notes.interval j :=
    fun j hj => s.notes.interval_addInterval_of_lt _ (hs.active_lt j hj)
  refine h.shrink ?_ ?_ rfl
  · exact h.filed.congr (fun _ => rfl) (fun _ => Iff.rfl) fun j hj => by rw [hold j hj]
  · intro j hj
    refine ⟨hj, ?_, ?_, fun _ _ => rfl⟩
    · rw [Allocator.interval, hold j hj]
      rfl
    · rw [Allocator.interval, hold j hj]
      rfl

/-- A result comes into its register. -/
theorem result (hids : ∀ j ∈ s.active, ∀ u, (s.interval j).owner = .temp u → y.id ≠ u.id)
    (howner : (s.interval i).owner = .temp y) (hlive : (s.interval i).liveIn = none)
    (hslips : ¬ Slips y (s, i)) (hactivated : Activated g y i s s₁)
    (hs' : ({ s₁ with notes := withReg s₁.notes y i } : Allocator).Orderly g)
    (hcontent : n.content i = .result y.id) :
    Stocked g n (past ++ [y]) (Function.update K ((withReg s₁.notes y i).reg y) [.result y.id])
      { s₁ with notes := withReg s₁.notes y i } := by
  obtain ⟨reg, hreg⟩ := hactivated.exists_liveIn
  rw [reg_withReg hreg, ← hcontent]
  refine h.seated hs hids hslips hactivated hs' (hactivated.mem_active hlive) hreg ?_
  intro u howner'
  rw [howner] at howner'
  injection howner' with howner'
  exact howner' ▸ (reg_withReg hreg).symm

end

end Stowed

/-! ### Stores -/

/-- What is noted when the way is cleared for a store: at most the spill of a variable. -/
theorem clearFor_unmoved (hs : s.Orderly g) {reg : Int} (h : clearFor g t reg s = .ok () s') :
    (∀ j ∈ s'.active, Unmoved j s s') ∧
      (s'.notes.tree t).restores = (s.notes.tree t).restores ∧
      ∀ sp ∈ (s'.notes.tree t).spills, sp ∈ (s.notes.tree t).spills ∨
        sp.interval ∈ s.active ∧ sp.reg = (s.interval sp.interval).liveIn ∧
          (s.interval sp.interval).owner.isTemp = false := by
  obtain ⟨k, -, ⟨-, rfl⟩ | ⟨v, hv, ⟨-, rest, hrest, rfl⟩ | ⟨hslot, old, hspill⟩⟩⟩ :=
    clearFor_cases h
  · exact ⟨fun j hj => ⟨hj, rfl, rfl, fun _ _ => rfl⟩, rfl, fun sp hsp => Or.inl hsp⟩
  · refine ⟨fun j hj => ⟨?_, rfl, rfl, fun _ _ => rfl⟩, rfl, fun sp hsp => Or.inl hsp⟩
    have hlt := hs.occupied_lt k v (Option.join_eq_some_iff.mp hv)
    obtain ⟨-, rfl⟩ := removeAlike_active hs hlt hrest
    exact List.mem_of_mem_erase hj
  · have hlt := hs.occupied_lt k v (Option.join_eq_some_iff.mp hv)
    obtain ⟨hmem, hactive, -, -⟩ := spill_active hs hlt hspill
    refine ⟨?_, restores_spill_slot hspill hslot t, ?_⟩
    · intro j hj
      rw [hactive, hs.active_nodup.mem_erase_iff] at hj
      have hstayed := spill_stayed hs hlt hspill (Ne.symm hj.1)
      exact ⟨hj.2, hstayed.liveIn_eq, (extends_spill hspill).owner_eq (hs.active_lt j hj.2),
        fun u _ => reg_spill hspill u⟩
    · intro sp hsp
      obtain ⟨use, k', rest, hlive, -, -, -, rfl⟩ := spill_cases hspill
      rw [spills_spillNotes, if_pos rfl, List.mem_append, List.mem_singleton] at hsp
      refine hsp.imp_right ?_
      rintro rfl
      exact ⟨hmem, hlive.symm, hslot⟩

/-- What a store into `reg` does to the intervals other than that of its variable. -/
theorem settle_unmoved (hs : s.Orderly g) {reg : Int} (h : settle g t i reg s = .ok () s') :
    (∀ j ∈ s'.active, j ≠ i → Unmoved j s s') ∧
      (s'.interval i).liveIn = some reg ∧
      (s'.notes.tree t).restores = (s.notes.tree t).restores ∧
      ∀ sp ∈ (s'.notes.tree t).spills, sp ∈ (s.notes.tree t).spills ∨
        sp.interval ∈ s.active ∧ sp.reg = (s.interval sp.interval).liveIn ∧
          (s.interval sp.interval).owner.isTemp = false := by
  obtain ⟨s₁, s₂, k, hclear, hunseated, hk, rfl⟩ := settle_cases h
  obtain ⟨hunmoved, hrestores, hspills⟩ := clearFor_unmoved hs hclear
  have hseat : ∀ j, j ≠ i → Unmoved j s s₁ → Unmoved j s { s₂ with
      notes := s₂.notes.place i (some reg)
      registers := s₂.registers.set k (some i) } := by
    intro j hji hj
    refine ⟨hj.active, ?_, ?_, ?_⟩
    · rw [Allocator.interval, Notes.liveIn_place_of_ne _ i j _ (Ne.symm hji), ← hj.liveIn_eq]
      cases hunseated <;> rfl
    · rw [Allocator.interval, Notes.owner_place, ← hj.owner_eq]
      cases hunseated <;> rfl
    · intro u hu
      rw [← hj.reg_eq u hu]
      cases hunseated <;> rfl
  refine ⟨?_, Notes.liveIn_place_self _ _ _, ?_, ?_⟩
  · intro j hj hji
    refine hseat j hji (hunmoved j ?_)
    cases hunseated with
    | moved => exact hj
    | entered =>
        rcases List.mem_append.mp hj with hj | hj
        · exact hj
        · exact absurd (List.mem_singleton.mp hj) hji
  · cases hunseated <;> exact hrestores
  · cases hunseated <;> exact hspills

/-- No restore is noted at a store. -/
theorem scanStore_restores (hg : g.twins = {}) (hs : s.Orderly g)
    (h : scanStore g t s = .ok () s') :
    (s'.notes.tree t).restores = (s.notes.tree t).restores := by
  obtain ⟨i, value, rest, s₁, -, -, hsettle, rfl⟩ := scanStore_cases h
  have hkept : (s₁.notes.tree t).restores = (s.notes.tree t).restores := by
    split at hsettle
    · rw [hsettle]
    · exact (settle_unmoved hs hsettle).2.2.1
  simp only [Graph.sharers_of_twins_eq_empty hg, List.foldl_cons, List.foldl_nil,
    Notes.addStored, Notes.tree_modifyTree, if_true]
  exact hkept

/-- A store leaves its variable in the register from which it takes the value. -/
theorem Stowed.store (h : Stowed g n past y H K s) (hs : s.Orderly g) (hi : i < s.slots.length)
    {reg : Int} (hreg : 0 ≤ reg)
    (hsettle : if (s.interval i).liveIn = some reg then s₁ = s
      else settle g y i reg s = .ok () s₁)
    {x : Option Literal} (hcontent : n.content i = .slot x)
    (hne : ∀ j ∈ s.active, j ≠ i → n.content j ≠ .slot x)
    (hself : .slot x ∈ K' reg) (hkept : ∀ r, ∀ c ∈ K r, c ≠ .slot x → c ∈ K' r) :
    (s₁.notes.tree y).restores = (s.notes.tree y).restores ∧
      (∀ sp ∈ (s₁.notes.tree y).spills, H.Holds sp.reg (n.content sp.interval)) ∧
      Stocked g n (past ++ [y]) K' s₁ := by
  have hslot : ∀ u, (s.interval i).owner ≠ .temp u := by
    intro u howner
    rw [hs.owner_slot i hi] at howner
    cases howner
  have hstocked : Filed s₁.registers s₁.active s₁.notes → (s₁.interval i).liveIn = some reg →
      (s₁.interval i).owner = (s.interval i).owner →
      (∀ j ∈ s₁.active, j ≠ i → Unmoved j s s₁) → Stocked g n (past ++ [y]) K' s₁ := by
    intro hfiled hlive howner hunmoved
    refine ⟨hfiled, ?_, ?_⟩
    · intro j hj
      by_cases hji : j = i
      · subst hji
        exact ⟨reg, hlive, hcontent ▸ hself⟩
      · have hj' := hunmoved j hj hji
        obtain ⟨r, hr, hc⟩ := h.housed j hj'.active
        exact ⟨r, hj'.liveIn_eq.trans hr, hkept r _ hc (hne j hj'.active hji)⟩
    · intro j hj u p howner' hparent hp
      by_cases hji : j = i
      · subst hji
        exact absurd (howner.symm.trans howner') (hslot u)
      · have hj' := hunmoved j hj hji
        have howner₀ := hj'.owner_eq.symm.trans howner'
        rw [hj'.liveIn_eq, hj'.reg_eq u howner₀]
        exact h.home j hj'.active u p howner₀ hparent hp
  split at hsettle
  · next hlive =>
      subst hsettle
      exact ⟨rfl, h.spilled,
        hstocked h.filed hlive rfl fun j hj _ => ⟨hj, rfl, rfl, fun _ _ => rfl⟩⟩
  · next hlive =>
      obtain ⟨hunmoved, hlive₁, hrestores, hspills⟩ := settle_unmoved hs hsettle
      have hcount := Nat.lt_of_lt_of_le hi hs.slots_le
      refine ⟨hrestores, ?_, hstocked (settle_filed hs hi hreg hlive h.filed hsettle) hlive₁
        ((extends_settle hsettle).owner_eq hcount) hunmoved⟩
      intro sp hsp
      rcases hspills sp hsp with hsp | ⟨hmem, hspreg, htemp⟩
      · exact h.spilled sp hsp
      · rw [hspreg]
        refine h.untaken _ hmem fun u howner => ?_
        rw [howner] at htemp
        cases htemp

end Alloc
end LinearScan
