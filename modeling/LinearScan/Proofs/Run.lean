import LinearScan.Compile
import LinearScan.Proofs.Survey

/-!
# The run of a scan

An orderly state stays orderly from tree to tree and from block to block.  Where a block
ends its exit set is fixed; where a block starts it takes over the exit set of the first
of its predecessors that has been scanned.  So at the end of the scan every block has an
exit set, which lists each local variable at most once.
-/

namespace LinearScan

open Allocator

/-! ## Trees -/

namespace Alloc

variable {g : Graph} {t : Tree} {s s' : Allocator} {i : Nat}

theorem Activated.exists_liveIn (h : Activated g t i s s') :
    ∃ r, (s'.interval i).liveIn = some r := by
  cases h with
  | already reg hlive => exact ⟨reg, hlive⟩
  | free number filled n => exact ⟨number, Notes.liveIn_place_self n i _⟩
  | evicted use v reg k s₁ => exact ⟨reg, Notes.liveIn_place_self s₁.notes i _⟩

theorem reg_withReg {n : Notes} {r : Int} (h : (n.interval i).liveIn = some r) :
    (withReg n t i).reg t = r := by
  simp only [withReg, h, Notes.reg, Notes.tree_modifyTree, if_true]

/-- A tree that produces a value for another tree gets a register of the file. -/
theorem scanTree_reg (hs : s.Orderly g) (hsubtrees : ∀ u ∈ t.subtrees, 0 ≤ s.notes.reg u)
    (h : scanTree g t s = .ok () s') (hvalue : t.kind.isValue = true)
    {p : Tree} (hparent : g.parent t = some p) :
    0 ≤ s'.notes.reg t ∧ s'.notes.reg t < s'.registers.length := by
  obtain ⟨s₁, hprepare, hplace⟩ := scanTree_cases h
  have hs₁ : s₁.Orderly g :=
    ((prepare_moves hprepare).orderly (hs.turn (some t) s.reuse) hsubtrees).1
  -- Whichever way the interval of `t` was activated, it lives in a register of the file.
  have hreg : ∀ {s₂ s₃ : Allocator} {i : Nat}, s₂.Orderly g → i < s₂.notes.intervalCount →
      Activated g t i s₂ s₃ → 0 ≤ (withReg s₃.notes t i).reg t ∧
        (withReg s₃.notes t i).reg t < s₃.registers.length := by
    intro s₂ s₃ i hs₂ hi hactivated
    obtain ⟨r, hr⟩ := hactivated.exists_liveIn
    have hr' : (s₃.notes.interval i).liveIn = some r := hr
    rw [reg_withReg hr']
    exact (hactivated.orderly hs₂ hi).live_range i r hr
  rcases place_cases hplace with ⟨hkind, hload⟩ | ⟨hkind, -⟩ |
      ⟨hload, hstore, ⟨q, hq, htemp⟩ | ⟨hnone, -⟩⟩
  · obtain ⟨i, s₂, hslot, hactivated, rfl⟩ := scanLoad_cases hload
    exact hreg hs₁ (Nat.lt_of_lt_of_le (hs₁.slotOf_lt hslot) hs₁.slots_le) hactivated
  · rw [hkind] at hvalue
    cases hvalue
  · obtain ⟨s₂, hactivated, rfl⟩ := scanTemp_cases htemp
    refine hreg (Move.orderly hs₁ ?_ (.create q hq hload hstore)) (Nat.lt_succ_self _) hactivated
    exact fun u hu => ((prepare_moves hprepare).orderly (hs.turn (some t) s.reuse) hsubtrees).2 u
      (hsubtrees u hu)
  · rw [hnone] at hparent
    cases hparent

end Alloc

/-- In `s` the trees `before` of a block have been scanned. -/
structure Allocator.Scanning (g : Graph) (before : List Tree) (s : Allocator) : Prop where
  orderly : s.Orderly g
  reg_nonneg : ∀ u ∈ before, u.kind.isValue = true → 0 ≤ s.notes.reg u

namespace Alloc

variable {g : Graph} {pending : List Tree} {b : BlockId} {t : Tree} {s s' : Allocator}
  {before after ts : List Tree}

section

variable (hg : g.Formed pending) (hs : s.Scanning g before)
include hg hs

theorem Scanning.subtrees_reg (htrees : g.treesOf b = before ++ t :: after) :
    ∀ u ∈ t.subtrees, 0 ≤ s.notes.reg u := by
  intro u hu
  exact hs.reg_nonneg u (hg.subtree_mem_before htrees hu)
    (hg.subtree_isValue (b := b) (by simp [htrees]) hu)

theorem scanTree_scanning (htrees : g.treesOf b = before ++ t :: after)
    (h : scanTree g t s = .ok () s') : s'.Scanning g (before ++ [t]) := by
  have hsubtrees := Scanning.subtrees_reg hg hs htrees
  obtain ⟨hs', hregs⟩ := (scanTree_moves hg.twins_eq h).orderly hs.orderly hsubtrees
  refine ⟨hs', ?_⟩
  intro u hu hvalue
  rcases List.mem_append.mp hu with hu | hu
  · exact hregs u (hs.reg_nonneg u hu hvalue)
  · obtain rfl : u = t := by simpa using hu
    obtain ⟨p, -, -, hparent⟩ := hg.exists_parent (b := b) (by simp [htrees]) hvalue
    exact (scanTree_reg hs.orderly hsubtrees h hvalue hparent).1

theorem scanTrees_scanning (htrees : g.treesOf b = before ++ ts)
    (h : scanTrees g ts s = .ok () s') : s'.Scanning g (g.treesOf b) ∧ s.Extends s' := by
  induction ts generalizing s before with
  | nil =>
      obtain ⟨-, rfl⟩ := pure_cases h
      rw [List.append_nil] at htrees
      exact ⟨htrees ▸ hs, .refl s'⟩
  | cons t ts ih =>
      obtain ⟨⟨⟩, s₁, hfirst, hrest⟩ := exists_of_bind_apply_eq_ok h
      have hs₁ := scanTree_scanning hg hs htrees hfirst
      obtain ⟨hs', hext⟩ := ih hs₁ (by simp [htrees]) hrest
      exact ⟨hs', (scanTree_moves hg.twins_eq hfirst).extends.trans hext⟩

end

end Alloc

/-! ## Between blocks -/

namespace Allocator

/-- A set of crossings lists local variables, each at most once, with their registers. -/
structure Fits (s : Allocator) (cs : List Crossing) : Prop where
  nodup : (cs.map Crossing.interval).Nodup
  interval_lt : ∀ c ∈ cs, c.interval < s.slots.length
  reg_range : ∀ c ∈ cs, ∃ r : Int, c.reg = some r ∧ 0 ≤ r ∧ r < s.registers.length

theorem Fits.congr {s s' : Allocator} {cs : List Crossing} (hcs : s.Fits cs)
    (h : s.Continues s') : s'.Fits cs where
  nodup := hcs.nodup
  interval_lt c hc := by
    rw [h.slots_eq]
    exact hcs.interval_lt c hc
  reg_range c hc := by
    rw [h.size_eq]
    exact hcs.reg_range c hc

/-- What remains to be put into registers when the first crossing is in its own. -/
theorem Fits.tail {s : Allocator} {c : Crossing} {cs : List Crossing} (hcs : s.Fits (c :: cs))
    (hfresh : ∀ d ∈ c :: cs, d.interval ∉ s.active) :
    s.Fits cs ∧ ∀ d ∈ cs, d.interval ∉ s.active ++ [c.interval] := by
  obtain ⟨hc, hnodup⟩ := List.nodup_cons.mp hcs.nodup
  refine ⟨⟨hnodup, fun d hd => hcs.interval_lt d (by simp [hd]),
    fun d hd => hcs.reg_range d (by simp [hd])⟩, ?_⟩
  intro d hd hactive
  rcases List.mem_append.mp hactive with hactive | hactive
  · exact hfresh d (by simp [hd]) hactive
  · have heq : d.interval = c.interval := by simpa using hactive
    exact hc (heq ▸ List.mem_map_of_mem hd)

end Allocator

namespace Alloc

variable {g : Graph} {pending : List Tree} {b : BlockId} {s s' : Allocator}

theorem life_evacuate (n : Notes) (is : List IntervalId) (j : IntervalId) :
    ((n.evacuate is).interval j).life = (n.interval j).life := by
  induction is generalizing n with
  | nil => rfl
  | cons i is ih => rw [Notes.evacuate_cons, ih, Notes.life_place]

theorem edges_evacuate (n : Notes) (is : List IntervalId) :
    (n.evacuate is).edges = n.edges := by
  induction is generalizing n with
  | nil => rfl
  | cons i is ih => rw [Notes.evacuate_cons, ih]; rfl

theorem cleared_continues (s : Allocator) (b : BlockId) :
    s.Continues (cleared { s with block := some b }) where
  size_eq := by simp [cleared]
  slots_eq := rfl
  edges_eq := edges_evacuate _ _
  index_eq u := by simp [cleared, Notes.index]
  predecessors_eq c := by simp [cleared]
  count_le := by simp [cleared]
  life_eq i _ := life_evacuate _ _ i

theorem cleared_orderly (hs : s.Orderly g) (b : BlockId) :
    (cleared { s with block := some b }).Orderly g := by
  have hlive : ∀ j, ((cleared { s with block := some b }).interval j).liveIn =
      if j ∈ s.active then none else (s.interval j).liveIn :=
    fun j => Notes.liveIn_evacuate _ _ j
  have hcount : (cleared { s with block := some b }).notes.intervalCount =
      s.notes.intervalCount := Notes.intervalCount_evacuate _ _
  have hcontinues := cleared_continues s b
  exact
    { toOwned := hs.toOwned.congr hcontinues hcount
      active_nodup := List.nodup_nil
      active_lt := by
        intro i hi
        cases hi
      active_live := by
        intro i hi
        cases hi
      slot_active := by
        intro i r hi hr
        rw [hlive] at hr
        split at hr
        · cases hr
        · next hactive => exact absurd (hs.slot_active i r hi hr) hactive
      live_range := by
        intro i r hr
        rw [hlive] at hr
        rw [hcontinues.size_eq]
        split at hr
        · cases hr
        · exact hs.live_range i r hr
      occupied_lt := by
        intro k j hj
        simp [cleared, List.getElem?_replicate] at hj
      spill_lt := by
        intro u sp hsp
        rw [hcount]
        exact hs.spill_lt u sp (by simpa [cleared] using hsp)
      restore_lt := by
        intro u r hr
        rw [hcount]
        exact hs.restore_lt u r (by simpa [cleared] using hr) }

theorem Seated.extends {cs : List Crossing} (h : Seated cs s s') : s.Extends s' := by
  induction h with
  | nil s => exact .refl s
  | @cons c _ s _ _ _ _ ih => exact (extends_place s c.interval c.reg (by simp) _).trans ih

theorem Seated.orderly {cs : List Crossing} (h : Seated cs s s') (hs : s.Orderly g)
    (hcs : s.Fits cs) (hfresh : ∀ c ∈ cs, c.interval ∉ s.active) : s'.Orderly g := by
  induction h with
  | nil s => exact hs
  | @cons c cs s s' k hk hrest ih =>
      obtain ⟨r, hr, hrange⟩ := hcs.reg_range c (by simp)
      have hlt := hcs.interval_lt c (by simp)
      have hlive : (s.interval c.interval).liveIn = none := by
        by_contra hne
        obtain ⟨q, hq⟩ := Option.ne_none_iff_exists'.mp hne
        exact hfresh c (by simp) (hs.slot_active c.interval q hlt hq)
      have hext : s.Extends { s with
          notes := s.notes.place c.interval c.reg
          registers := s.registers.set k (some c.interval)
          active := s.active ++ [c.interval] } :=
        extends_place s c.interval c.reg (by simp) _
      have hs₁ := orderly_push hs (Nat.lt_of_lt_of_le hlt hs.slots_le) hlive hrange k
      rw [← hr] at hs₁
      obtain ⟨hrest', hfresh'⟩ := hcs.tail hfresh
      exact ih hs₁ (hrest'.congr hext.toContinues) hfresh'

/-- `s` with other notes about its blocks. -/
def withBlocks (s : Allocator) (blocks : Table BlockNote) (count : Nat) : Allocator :=
  { s with notes := { s.notes with blocks := blocks, crossingsCount := count } }

theorem continues_withBlocks {blocks : Table BlockNote} (count : Nat)
    (hpreds : ∀ c, (blocks.get c).predecessors = (s.notes.block c).predecessors) :
    s.Continues (withBlocks s blocks count) :=
  ⟨rfl, rfl, rfl, fun _ => rfl, hpreds, Nat.le_refl _, fun _ _ => rfl⟩

theorem orderly_withBlocks (hs : s.Orderly g) {blocks : Table BlockNote} (count : Nat)
    (hpreds : ∀ c, (blocks.get c).predecessors = (s.notes.block c).predecessors) :
    (withBlocks s blocks count).Orderly g where
  toOwned := hs.toOwned.congr (continues_withBlocks count hpreds) rfl
  active_nodup := hs.active_nodup
  active_lt := hs.active_lt
  active_live := hs.active_live
  slot_active := hs.slot_active
  live_range := hs.live_range
  occupied_lt := hs.occupied_lt
  spill_lt := hs.spill_lt
  restore_lt := hs.restore_lt

/-- What the start of a block leaves. -/
structure Entered (g : Graph) (b : BlockId) (s s' : Allocator) : Prop where
  orderly : s'.Orderly g
  continues : s.Continues s'
  exit_eq : ∀ c, (s'.notes.block c).exit = (s.notes.block c).exit
  entry_of_ne : ∀ c, b ≠ c → (s'.notes.block c).entry = (s.notes.block c).entry
  entry_eq : (s'.notes.block b).entry =
    if (s.notes.block b).predecessors = [] then (s.notes.block b).entry
    else s.notes.firstExit (s.notes.block b).predecessors
  entry_isSome : (s.notes.block b).predecessors ≠ [] → (s'.notes.block b).entry ≠ none

theorem exists_exit_of_firstExit {n : Notes} {ps : List BlockId} {crossings : Crossings}
    (h : n.firstExit ps = some crossings) : ∃ p ∈ ps, (n.block p).exit = some crossings := by
  induction ps with
  | nil => cases h
  | cons p ps ih =>
      rw [Notes.firstExit] at h
      split at h
      · next hexit => exact ⟨p, by simp, hexit.trans h⟩
      · obtain ⟨q, hq, hexit⟩ := ih h
        exact ⟨q, by simp [hq], hexit⟩

theorem enter_entered (hs : s.Orderly g)
    (hexits : ∀ p crossings, (s.notes.block p).exit = some crossings → s.Fits crossings.members)
    (h : enter b s = .ok () s') : Entered g b s s' := by
  have hclear := cleared_orderly hs b
  have hcontinues := cleared_continues s b
  have hblock := block_cleared s b
  rcases enter_cases h with ⟨hnil, rfl⟩ | ⟨crossings, s₁, hne, hfirst, hseated, rfl⟩
  · exact
      { orderly := hclear
        continues := hcontinues
        exit_eq := fun c => by rw [hblock]
        entry_of_ne := fun c _ => by rw [hblock]
        entry_eq := by rw [hblock, if_pos hnil]
        entry_isSome := fun hne => absurd hnil hne }
  · obtain ⟨p, -, hexit⟩ := exists_exit_of_firstExit hfirst
    have hfits := (hexits p crossings hexit).congr hcontinues
    have hs₁ : s₁.Orderly g := hseated.orderly hclear hfits fun c _ hactive => by cases hactive
    have hblock₁ : ∀ c, s₁.notes.block c = s.notes.block c :=
      fun c => (hseated.extends.block_notes_eq c).trans (hblock c)
    have hrow : ∀ c, (withEntry s₁.notes b crossings).block c =
        if b = c then { s.notes.block c with entry := some crossings } else s.notes.block c := by
      intro c
      rw [withEntry, Notes.block_modifyBlock, hblock₁]
    have hpreds : ∀ c, ((withEntry s₁.notes b crossings).block c).predecessors =
        (s₁.notes.block c).predecessors := by
      intro c
      rw [hrow, hblock₁]
      split <;> rfl
    have hentry := continues_withBlocks s₁.notes.crossingsCount hpreds
    exact
      { orderly := orderly_withBlocks hs₁ s₁.notes.crossingsCount hpreds
        continues := hcontinues.trans (hseated.extends.toContinues.trans hentry)
        exit_eq := fun c => by rw [hrow]; split <;> rfl
        entry_of_ne := fun c hc => by rw [hrow, if_neg hc]
        entry_eq := by rw [hrow, if_pos rfl, if_neg hne, hfirst]
        entry_isSome := fun _ => by simp [hrow] }

/-- What the end of a block leaves. -/
structure Departed (g : Graph) (b : BlockId) (s s' : Allocator) : Prop where
  orderly : s'.Orderly g
  continues : s.Continues s'
  entry_eq : ∀ c, (s'.notes.block c).entry = (s.notes.block c).entry
  exit_of_ne : ∀ c, b ≠ c → (s'.notes.block c).exit = (s.notes.block c).exit
  exit_fits : ∃ crossings, (s'.notes.block b).exit = some crossings ∧ s'.Fits crossings.members

theorem depart_departed (hs : s.Orderly g) (h : depart b s = .ok () s') : Departed g b s s' := by
  obtain ⟨kept, s₁, hsifted, rfl⟩ := depart_cases h
  have hs₁ := hsifted.orderly hs
  have hext := hsifted.extends
  have hrow : ∀ c, (s₁.notes.setExit b (crossingsOf s₁.notes kept)).block c =
      if b = c then
        { s.notes.block c with exit := some ⟨s₁.notes.crossingsCount, crossingsOf s₁.notes kept⟩ }
      else s.notes.block c := by
    intro c
    rw [Notes.block_setExit, hext.block_notes_eq]
  have hpreds : ∀ c, ((s₁.notes.setExit b (crossingsOf s₁.notes kept)).block c).predecessors =
      (s₁.notes.block c).predecessors := by
    intro c
    rw [hrow, hext.block_notes_eq]
    split <;> rfl
  have hexit : ({ s₁ with active := kept } : Allocator).Continues _ :=
    continues_withBlocks (s₁.notes.crossingsCount + 1) hpreds
  have hactive : s₁.Extends { s₁ with active := kept } := .of_notes_eq rfl rfl rfl rfl
  have hkept : ∀ i ∈ kept, i < s₁.slots.length := by
    intro i hi
    have hfilter := hsifted.kept_eq ▸ hi
    obtain ⟨hactive, hslot⟩ := List.mem_filter.mp hfilter
    have hlt := hs.active_lt i hactive
    rw [hext.slots_eq]
    by_contra hle
    rw [(hs.isTemp_iff hlt).mpr (Nat.le_of_not_lt hle)] at hslot
    cases hslot
  exact
    { orderly := orderly_withBlocks hs₁ (s₁.notes.crossingsCount + 1) hpreds
      continues := hext.toContinues.trans (hactive.toContinues.trans hexit)
      entry_eq := fun c => by rw [hrow]; split <;> rfl
      exit_of_ne := fun c hc => by rw [hrow, if_neg hc]
      exit_fits := by
        refine ⟨⟨s₁.notes.crossingsCount, crossingsOf s₁.notes kept⟩, by rw [hrow, if_pos rfl], ?_⟩
        refine ⟨?_, ?_, ?_⟩
        · have hmap : (crossingsOf s₁.notes kept).map Crossing.interval = kept := by
            rw [crossingsOf, List.map_map]
            exact List.map_id kept
          rw [hmap]
          exact hs₁.active_nodup
        · intro c hc
          obtain ⟨i, hi, rfl⟩ := List.mem_map.mp hc
          exact hkept i hi
        · intro c hc
          obtain ⟨i, hi, rfl⟩ := List.mem_map.mp hc
          obtain ⟨r, hr⟩ := hs₁.active_live i hi
          exact ⟨r, hr, hs₁.live_range i r hr⟩ }

/-! ## All blocks -/

theorem firstExit_filter {n : Notes} {scanned : List BlockId}
    (h : ∀ p, p ∉ scanned → (n.block p).exit = none) (ps : List BlockId) :
    n.firstExit (ps.filter (· ∈ scanned)) = n.firstExit ps := by
  induction ps with
  | nil => rfl
  | cons p ps ih =>
      by_cases hp : p ∈ scanned
      · rw [List.filter_cons_of_pos (by simpa using hp), Notes.firstExit, Notes.firstExit, ih]
      · rw [List.filter_cons_of_neg (by simpa using hp), ih, Notes.firstExit, h p hp]

theorem firstExit_congr_mem {n n' : Notes} {ps : List BlockId}
    (h : ∀ p ∈ ps, (n'.block p).exit = (n.block p).exit) : n'.firstExit ps = n.firstExit ps := by
  induction ps with
  | nil => rfl
  | cons p ps ih =>
      rw [Notes.firstExit, Notes.firstExit, h p (by simp), ih fun q hq => h q (by simp [hq])]

end Alloc

namespace Allocator

/-- In `s` the blocks `scanned` have been scanned, in this order, since `s₀`. -/
structure HasScanned (g : Graph) (s₀ : Allocator) (scanned : List BlockId) (s : Allocator) :
    Prop where
  orderly : s.Orderly g
  continues : s₀.Continues s
  exit_of_not_mem : ∀ b, b ∉ scanned → (s.notes.block b).exit = none
  exit_fits : ∀ b ∈ scanned, ∃ crossings,
    (s.notes.block b).exit = some crossings ∧ s.Fits crossings.members
  entry_of_not_mem : ∀ b, b ∉ scanned → (s.notes.block b).entry = none
  entry_eq : ∀ before b after, scanned = before ++ b :: after →
    (s.notes.block b).entry =
        s.notes.firstExit ((s₀.notes.block b).predecessors.filter (· ∈ before)) ∧
      ((s₀.notes.block b).predecessors ≠ [] → (s.notes.block b).entry ≠ none)

end Allocator

namespace Alloc

variable {g : Graph} {pending : List Tree} {b : BlockId} {s₀ s s' : Allocator}
  {scanned bs : List BlockId}

theorem HasScanned.exits (hs : HasScanned g s₀ scanned s) (p : BlockId) (crossings : Crossings)
    (h : (s.notes.block p).exit = some crossings) : s.Fits crossings.members := by
  by_cases hp : p ∈ scanned
  · obtain ⟨crossings', hexit, hfits⟩ := hs.exit_fits p hp
    rw [h] at hexit
    injection hexit with hexit
    exact hexit ▸ hfits
  · rw [hs.exit_of_not_mem p hp] at h
    cases h

/-- One more block. -/
theorem scanBlock_hasScanned (hg : g.Formed pending) (hs : HasScanned g s₀ scanned s)
    (hb : b ∉ scanned) (h : scanBlock g b s = .ok () s') : HasScanned g s₀ (scanned ++ [b]) s' := by
  obtain ⟨s₁, s₂, henter, htrees, hdepart⟩ := scanBlock_cases h
  have hentered := enter_entered hs.orderly (HasScanned.exits hs) henter
  have hstart : s₁.Scanning g [] := ⟨hentered.orderly, by simp⟩
  obtain ⟨hscanned, hext⟩ := scanTrees_scanning hg hstart (b := b) (by simp) htrees
  have hdeparted := depart_departed hscanned.orderly hdepart
  have hcontinues : s.Continues s' :=
    hentered.continues.trans (hext.toContinues.trans hdeparted.continues)
  have hexit : ∀ c, b ≠ c → (s'.notes.block c).exit = (s.notes.block c).exit := by
    intro c hc
    rw [hdeparted.exit_of_ne c hc, hext.block_notes_eq, hentered.exit_eq]
  have hentry : ∀ c, (s'.notes.block c).entry = (s₁.notes.block c).entry := by
    intro c
    rw [hdeparted.entry_eq, hext.block_notes_eq]
  have hpredecessors := hs.continues.predecessors_eq b
  exact
    { orderly := hdeparted.orderly
      continues := hs.continues.trans hcontinues
      exit_of_not_mem := by
        intro c hc
        rw [List.mem_append, not_or] at hc
        rw [hexit c (fun hbc => hc.2 (by simp [hbc]))]
        exact hs.exit_of_not_mem c hc.1
      exit_fits := by
        intro c hc
        by_cases hbc : b = c
        · subst hbc
          exact hdeparted.exit_fits
        · have hcs : c ∈ scanned := by
            rcases List.mem_append.mp hc with hc | hc
            · exact hc
            · exact absurd (by simpa using hc) (Ne.symm hbc)
          obtain ⟨crossings, hcrossings, hfits⟩ := hs.exit_fits c hcs
          exact ⟨crossings, (hexit c hbc).trans hcrossings, hfits.congr hcontinues⟩
      entry_of_not_mem := by
        intro c hc
        rw [List.mem_append, not_or] at hc
        rw [hentry, hentered.entry_of_ne c (fun hbc => hc.2 (by simp [hbc]))]
        exact hs.entry_of_not_mem c hc.1
      entry_eq := by
        intro before c after hsplit
        rcases List.eq_nil_or_concat after with rfl | ⟨after', last, rfl⟩
        · -- The new block itself: it took over what its predecessors have left.
          obtain ⟨rfl, hbc⟩ := List.append_inj' hsplit rfl
          obtain rfl : b = c := by simpa using hbc
          refine ⟨?_, ?_⟩
          · have hfilter : ∀ p ∈ (s₀.notes.block b).predecessors.filter (· ∈ scanned),
                (s'.notes.block p).exit = (s.notes.block p).exit := by
              intro p hp
              refine hexit p ?_
              rintro rfl
              exact hb (by simpa using (List.mem_filter.mp hp).2)
            rw [hentry, hentered.entry_eq, firstExit_congr_mem hfilter,
              firstExit_filter hs.exit_of_not_mem, hpredecessors]
            split
            · next hnil =>
                rw [hs.entry_of_not_mem b hb, hnil]
                rfl
            · rfl
          · intro hne
            rw [hentry]
            exact hentered.entry_isSome (by rwa [hpredecessors])
        · -- An earlier block: what it took over was fixed before.
          have hassoc : scanned ++ [b] = (before ++ c :: after') ++ [last] := by simpa using hsplit
          obtain ⟨hscanned, -⟩ := List.append_inj' hassoc rfl
          obtain ⟨hold, hne⟩ := hs.entry_eq before c after' hscanned
          have hcb : b ≠ c := by
            rintro rfl
            exact hb (by simp [hscanned])
          have hentry' : (s'.notes.block c).entry = (s.notes.block c).entry := by
            rw [hentry, hentered.entry_of_ne c hcb]
          rw [hentry']
          refine ⟨?_, hne⟩
          rw [hold]
          refine (firstExit_congr_mem ?_).symm
          intro p hp
          refine hexit p ?_
          rintro rfl
          have hpb : b ∈ before := by simpa using (List.mem_filter.mp hp).2
          exact hb (by simp [hscanned, hpb]) }

theorem scanBlocks_hasScanned (hg : g.Formed pending) (hs : HasScanned g s₀ scanned s)
    (hnodup : (scanned ++ bs).Nodup) (h : scanBlocks g bs s = .ok () s') :
    HasScanned g s₀ (scanned ++ bs) s' := by
  induction bs generalizing s scanned with
  | nil =>
      obtain ⟨-, rfl⟩ := pure_cases h
      rwa [List.append_nil]
  | cons b bs ih =>
      obtain ⟨⟨⟩, s₁, hfirst, hrest⟩ := exists_of_bind_apply_eq_ok h
      have hb : b ∉ scanned := by
        intro hmem
        have hdisjoint := (List.nodup_append.mp hnodup).2.2
        exact hdisjoint b hmem b (by simp) rfl
      have hs₁ := scanBlock_hasScanned hg hs hb hfirst
      have hassoc : scanned ++ b :: bs = (scanned ++ [b]) ++ bs := by simp
      rw [hassoc] at hnodup ⊢
      exact ih hs₁ hnodup hrest

/-! ## The whole scan -/

theorem scan_cases {ir : Ir} (h : scan g ir s = .ok () s') :
    ∃ s₁ s₂, survey g ir s = .ok () s₁ ∧ scanBlocks g (ir.blocks g) s₁ = .ok () s₂ ∧
      resolveEdges g (ir.blocks g) s₂ = .ok () s' := by
  obtain ⟨⟨⟩, s₁, hsurvey, hrest⟩ := exists_of_bind_apply_eq_ok h
  obtain ⟨⟨⟩, s₂, hblocks, hedges⟩ := exists_of_bind_apply_eq_ok hrest
  exact ⟨s₁, s₂, hsurvey, hblocks, hedges⟩

/-- Before the first block is scanned. -/
theorem survey_hasScanned {ir : Ir} {n : Notes} {size : Int} {reuse : Bool} (hn : n.Fresh)
    (h : survey g ir (Allocator.create n size reuse) = .ok () s) :
    HasScanned g s [] s ∧ (Allocator.create n size reuse).Listed s := by
  obtain ⟨hlisted, -⟩ := survey_listed h hn.liveIn_eq hn.intervalCount_eq
  have hblock : ∀ b, s.notes.block b = n.block b := by
    intro b
    rw [Notes.block, hlisted.blocks_eq]
    rfl
  refine ⟨?_, hlisted⟩
  exact
    { orderly := by
        refine hlisted.orderly g rfl ?_ hn.spills_eq hn.restores_eq
        intro k
        simp only [Allocator.create, List.getElem?_replicate]
        split <;> rfl
      continues := .refl s
      exit_of_not_mem := fun b _ => by rw [hblock, hn.exit_eq]
      exit_fits := by simp
      entry_of_not_mem := fun b _ => by rw [hblock, hn.entry_eq]
      entry_eq := by simp }

end Alloc

/-- What compiling a program gives when the scan returns. -/
theorem Program.compile_cases {p : Program} {settings : Settings} {c : Compiled}
    (h : p.compile settings = .ok c) (hfault : c.fault = none) :
    ∃ m, p.import? = .ok m ∧ c.graph = m.graph ∧ c.ir = m.ir ∧
      Alloc.scan m.graph m.ir
        (Allocator.create m.notes settings.registers settings.reuse) = .ok () c.alloc := by
  obtain ⟨m, himport, hrest⟩ := exists_of_bind_eq_ok h
  refine ⟨m, himport, ?_⟩
  dsimp only at hrest
  cases hscan : Alloc.scan m.graph m.ir
      (Allocator.create m.notes settings.registers settings.reuse) with
  | ok value alloc =>
      simp only [hscan] at hrest
      injection hrest with hrest
      subst hrest
      exact ⟨rfl, rfl, rfl⟩
  | error fault alloc =>
      simp only [hscan] at hrest
      injection hrest with hrest
      subst hrest
      cases hfault

theorem Importer.WellFormed.formed {s : Importer} (hs : s.WellFormed) :
    s.graph.Formed s.stack := by
  have hchained := hs.chained
  rw [hs.first_eq] at hchained
  exact ⟨hs.linked, hchained, hs.planted, hs.twins_eq⟩

theorem Program.import?_formed {p : Program} {m : Imported} (h : p.import? = .ok m) :
    (∃ pending, m.graph.Formed pending) ∧ m.notes.Fresh ∧ m.ir.first = 0 := by
  obtain ⟨s, n, -, hs, hgraph, hir, -, -, hfresh⟩ := Program.import?_cases h
  refine ⟨⟨s.stack, ?_⟩, hfresh, by rw [hir]⟩
  rw [hgraph]
  exact hs.formed

end LinearScan
