import LinearScan.Proofs.Origins
import LinearScan.Proofs.Tearing
import Mathlib.Logic.Function.Basic

/-!
# The blocks that statements were read for

A tree notes the block that was current when it was read.  It need not stand there: what a
return leaves on the stack ends up in a later block, and a cut moves the last statement of a
block to a block of its own.  Still, as long as all cuts are at last statements, the offsets
of the statements tell when they were read, and a store, the block that it was read for and
the trees read later keep their order.
-/

namespace LinearScan
namespace Listing

variable {spans : BlockId → Span} {cur b c new : BlockId} {stack rest : List Tree}
  {start start' : Nat} {x y : Int × Tree} {t : Tree} {offset : Int}

/-- The statement `x` stands in some block, and is no jump. -/
def Stands (spans : BlockId → Span) (x : Int × Tree) : Prop :=
  x.2.kind ≠ .jmp ∧ ∃ b, x ∈ (spans b).entries

/-- The statement `x` stands in some block, and is a store. -/
def StandsStore (spans : BlockId → Span) (x : Int × Tree) : Prop :=
  x.2.kind = .stLocal ∧ ∃ b, x ∈ (spans b).entries

theorem StandsStore.stands (h : StandsStore spans x) : Stands spans x := by
  refine ⟨?_, h.2⟩
  rw [h.1]
  decide

/-- How statements stand in blocks, where `spans` shows the blocks.  Jumps are left out: those
that come from cuts tell nothing by their offsets. -/
structure Arranged (spans : BlockId → Span) : Prop where
  offset_le : ∀ {b x}, x ∈ (spans b).entries → x.2.kind ≠ .jmp → (spans b).offset ≤ x.1
  sorted : ∀ b, (spans b).entries.Pairwise fun x y =>
    x.2.kind ≠ .jmp → y.2.kind ≠ .jmp → x.1 < y.1
  /-- Behind a statement that leaves the block there are only jumps and branches. -/
  closed : ∀ b, (spans b).entries.Pairwise fun x y =>
    x.2.kind.leaves = true → y.2.kind = .jmp ∨ y.2.kind = .branch
  /-- A statement stands where it was read, or it was cut off and stands alone. -/
  home : ∀ {b x}, x ∈ (spans b).entries → x.2.block = b ∨ (spans b).entries = [x]
  /-- A statement at the end of a block is not followed by stores for the same block. -/
  store_le_last : ∀ {b x y}, (spans b).entries.getLast? = some x → x.2.kind ≠ .jmp →
    StandsStore spans y → y.2.block = x.2.block → y.1 ≤ x.1
  eq_of_offset_eq : ∀ {x y}, Stands spans x → Stands spans y → x.1 = y.1 → x = y
  /-- What is read later is read for the same block or for one that starts later. -/
  lt_offset : ∀ {x y}, Stands spans x → Stands spans y → x.1 < y.1 →
    x.2.block = y.2.block ∨ x.1 < (spans y.2.block).offset
  /-- The trees of a statement behind a store were read for no earlier block. -/
  store_offset_le : ∀ {x y}, StandsStore spans y → Stands spans x → y.1 < x.1 →
    ∀ t ∈ x.2.postorder, (spans y.2.block).offset ≤ (spans t.block).offset

/-- The statements that were read stand before `start`.  Each was read for the current block, which
is `cur`, or stands before it, and none for a block that starts later.  No tree that waits on the
stack was read for an earlier block than a store. -/
structure ArrangedUpTo (spans : BlockId → Span) (cur : BlockId) (stack : List Tree) (start : Nat) :
    Prop where
  arranged : Arranged spans
  entry_lt : ∀ {b x}, x ∈ (spans b).entries → x.1 < start
  block_lt : ∀ {b}, (spans b).entries ≠ [] → (spans b).offset < start
  cur_le : (spans cur).offset ≤ start
  cur_home : ∀ x ∈ (spans cur).entries, x.2.block = cur
  lt_cur : ∀ {x}, Stands spans x → x.2.block = cur ∨ x.1 < (spans cur).offset
  le_cur : ∀ {x}, Stands spans x → (spans x.2.block).offset ≤ (spans cur).offset
  stack_le : ∀ {y}, StandsStore spans y → ∀ root ∈ stack, ∀ t ∈ root.postorder,
    (spans y.2.block).offset ≤ (spans t.block).offset

/-- The current block has not been cut, and not been left. -/
structure Open (spans : BlockId → Span) (cur : BlockId) : Prop where
  uncut : ∀ {b x}, x ∈ (spans b).entries → x.2.kind ≠ .jmp → x.2.block = cur → b = cur
  stays : ∀ x ∈ (spans cur).entries, x.2.kind.leaves = false

/-- Blocks without statements are in order. -/
theorem arrangedUpTo_of_entries_eq_nil (h : ∀ b, (spans b).entries = [])
    (hoffset : (spans cur).offset ≤ start) :
    ArrangedUpTo spans cur stack start ∧ Open spans cur := by
  have hstands : ∀ x, ¬ Stands spans x := by simp [Stands, h]
  have hstore : ∀ x, ¬ StandsStore spans x := fun x hx => hstands x hx.stands
  refine ⟨{
    arranged := {
      offset_le := by simp [h]
      sorted := by simp [h]
      closed := by simp [h]
      home := by simp [h]
      store_le_last := by simp [h]
      eq_of_offset_eq := fun hx => absurd hx (hstands _)
      lt_offset := fun hx => absurd hx (hstands _)
      store_offset_le := fun hy => absurd hy (hstore _) }
    entry_lt := by simp [h]
    block_lt := fun hne => absurd (h _) hne
    cur_le := hoffset
    cur_home := by simp [h]
    lt_cur := fun hx => absurd hx (hstands _)
    le_cur := fun hx => absurd hx (hstands _)
    stack_le := fun hy => absurd hy (hstore _) }, by simp [h], by simp [h]⟩

theorem ArrangedUpTo.stands_lt (h : ArrangedUpTo spans cur stack start) (hx : Stands spans x) :
    x.1 < start := by
  obtain ⟨b, hb⟩ := hx.2
  exact h.entry_lt hb

/-! ## Trees -/

/-- New trees on the stack are read for the current block. -/
theorem ArrangedUpTo.restack {stack' : List Tree} (h : ArrangedUpTo spans cur stack start)
    (hstack : ∀ root ∈ stack', ∀ t ∈ root.postorder,
      t.block = cur ∨ ∃ root' ∈ stack, t ∈ root'.postorder) :
    ArrangedUpTo spans cur stack' start := by
  refine { h with stack_le := ?_ }
  intro y hy root hroot t ht
  rcases hstack root hroot t ht with hcur | ⟨root', hroot', ht'⟩
  · rw [hcur]
    exact h.le_cur hy.stands
  · exact h.stack_le hy root' hroot' t ht'

/-! ## Statements -/

/-- The spans when the tree `t` was put at the end of the block `b`. -/
def push (spans : BlockId → Span) (b : BlockId) (offset : Int) (t : Tree) : BlockId → Span :=
  Function.update spans b ((spans b).push offset t)

theorem offset_push (c : BlockId) :
    (Listing.push spans b offset t c).offset = (spans c).offset := by
  rw [push, Function.update_apply]
  split
  · next hc => rw [hc, Span.push]
  · rfl

theorem entries_push (c : BlockId) : (Listing.push spans b offset t c).entries =
    if c = b then (spans b).entries ++ [(offset, t)] else (spans c).entries := by
  rw [push, Function.update_apply]
  split <;> rfl

theorem mem_push : x ∈ (Listing.push spans b offset t c).entries ↔
    x ∈ (spans c).entries ∨ c = b ∧ x = (offset, t) := by
  rw [entries_push]
  by_cases hc : c = b
  · simp [hc]
  · simp [hc]

theorem Stands.of_push (h : Stands (Listing.push spans b offset t) x) :
    Stands spans x ∨ t.kind ≠ .jmp ∧ x = (offset, t) := by
  obtain ⟨hkind, c, hx⟩ := h
  rcases mem_push.mp hx with hx | ⟨-, rfl⟩
  · exact Or.inl ⟨hkind, c, hx⟩
  · exact Or.inr ⟨hkind, rfl⟩

theorem StandsStore.of_push (h : StandsStore (Listing.push spans b offset t) x) :
    StandsStore spans x ∨ t.kind = .stLocal ∧ x = (offset, t) := by
  obtain ⟨hkind, c, hx⟩ := h
  rcases mem_push.mp hx with hx | ⟨-, rfl⟩
  · exact Or.inl ⟨hkind, c, hx⟩
  · exact Or.inr ⟨hkind, rfl⟩

section

variable (h : ArrangedUpTo spans cur (t :: rest) start) (hblock : t.block = cur)
  (hopen : t.kind = .jmp ∨ t.kind = .branch ∨ Open spans cur)
include h hblock hopen

/-- A statement is read for the current block and put at its end. -/
theorem ArrangedUpTo.arranged_push :
    Arranged (Listing.push spans cur start t) where
  offset_le := by
    intro b x hx hkind
    rw [offset_push]
    rcases mem_push.mp hx with hx | ⟨rfl, rfl⟩
    · exact h.arranged.offset_le hx hkind
    · exact h.cur_le
  sorted := by
    intro b
    rw [entries_push]
    split
    · refine List.pairwise_append.mpr ⟨h.arranged.sorted cur, List.pairwise_singleton _ _, ?_⟩
      intro x hx y hy _ _
      rw [List.mem_singleton.mp hy]
      exact h.entry_lt hx
    · exact h.arranged.sorted b
  closed := by
    intro b
    rw [entries_push]
    split
    · refine List.pairwise_append.mpr ⟨h.arranged.closed cur, List.pairwise_singleton _ _, ?_⟩
      intro x hx y hy hleaves
      rw [List.mem_singleton.mp hy]
      rcases hopen with hkind | hkind | hopen
      · exact Or.inl hkind
      · exact Or.inr hkind
      · rw [hopen.stays x hx] at hleaves
        cases hleaves
    · exact h.arranged.closed b
  home := by
    intro b x hx
    rcases mem_push.mp hx with hold | ⟨rfl, rfl⟩
    · by_cases hb : b = cur
      · subst hb
        exact Or.inl (h.cur_home x hold)
      · rw [entries_push, if_neg hb]
        exact h.arranged.home hold
    · exact Or.inl hblock
  store_le_last := by
    intro b x y hlast hkind hy hsame
    rw [entries_push] at hlast
    split at hlast
    · obtain rfl : x = ((start : Int), t) := by simpa using hlast.symm
      rcases StandsStore.of_push hy with hy | ⟨-, rfl⟩
      · exact Int.le_of_lt (h.stands_lt hy.stands)
      · exact Int.le_refl _
    · next hb =>
        rcases StandsStore.of_push hy with hy | ⟨hstore, rfl⟩
        · exact h.arranged.store_le_last hlast hkind hy hsame
        · rcases hopen with hjmp | hbranch | hopen
          · rw [hstore] at hjmp
            cases hjmp
          · rw [hstore] at hbranch
            cases hbranch
          · refine absurd (hopen.uncut (List.mem_of_getLast? hlast) hkind ?_) hb
            rw [← hsame, hblock]
  eq_of_offset_eq := by
    intro x y hx hy hxy
    rcases Stands.of_push hx with hx | ⟨-, rfl⟩ <;> rcases Stands.of_push hy with hy | ⟨-, rfl⟩
    · exact h.arranged.eq_of_offset_eq hx hy hxy
    · exact absurd hxy (Int.ne_of_lt (h.stands_lt hx))
    · exact absurd hxy (Int.ne_of_gt (h.stands_lt hy))
    · rfl
  lt_offset := by
    intro x y hx hy hxy
    rw [offset_push]
    rcases Stands.of_push hx with hx | ⟨-, rfl⟩ <;> rcases Stands.of_push hy with hy | ⟨-, rfl⟩
    · exact h.arranged.lt_offset hx hy hxy
    · rw [hblock]
      exact h.lt_cur hx
    · exact absurd hxy (Int.not_lt.mpr (Int.le_of_lt (h.stands_lt hy)))
    · exact absurd hxy (Int.lt_irrefl _)
  store_offset_le := by
    intro x y hy hx hyx u hu
    rw [offset_push, offset_push]
    rcases StandsStore.of_push hy with hy | ⟨-, rfl⟩ <;> rcases Stands.of_push hx with hx | ⟨-, rfl⟩
    · exact h.arranged.store_offset_le hy hx hyx u hu
    · exact h.stack_le hy t (by simp) u hu
    · exact absurd hyx (Int.not_lt.mpr (Int.le_of_lt (h.stands_lt hx)))
    · exact absurd hyx (Int.lt_irrefl _)

theorem ArrangedUpTo.push (hrest : t.kind = .stLocal → rest = []) (hstart : start < start') :
    ArrangedUpTo (Listing.push spans cur start t) cur rest start' where
  arranged := h.arranged_push hblock hopen
  entry_lt := by
    intro b x hx
    rcases mem_push.mp hx with hx | ⟨-, rfl⟩
    · have hlt := h.entry_lt hx
      omega
    · exact Int.ofNat_lt.mpr hstart
  block_lt := by
    intro b hne
    rw [offset_push]
    by_cases hb : b = cur
    · have hle := h.cur_le
      rw [hb]
      omega
    · rw [entries_push, if_neg hb] at hne
      have hlt := h.block_lt hne
      omega
  cur_le := by
    have hle := h.cur_le
    rw [offset_push]
    omega
  cur_home := by
    intro x hx
    rcases mem_push.mp hx with hx | ⟨-, rfl⟩
    · exact h.cur_home x hx
    · exact hblock
  lt_cur := by
    intro x hx
    rw [offset_push]
    rcases Stands.of_push hx with hx | ⟨-, rfl⟩
    · exact h.lt_cur hx
    · exact Or.inl hblock
  le_cur := by
    intro x hx
    rw [offset_push, offset_push]
    rcases Stands.of_push hx with hx | ⟨-, rfl⟩
    · exact h.le_cur hx
    · exact Int.le_of_eq (by rw [hblock])
  stack_le := by
    intro y hy root hroot u hu
    rw [offset_push, offset_push]
    rcases StandsStore.of_push hy with hy | ⟨hstore, -⟩
    · exact h.stack_le hy root (by simp [hroot]) u hu
    · rw [hrest hstore] at hroot
      cases hroot

end

/-- A statement that stays in its block leaves the block open. -/
theorem Open.push (h : Open spans cur) (hstays : t.kind.leaves = false) :
    Open (Listing.push spans cur offset t) cur where
  uncut := by
    intro b x hx hkind hcur
    rcases mem_push.mp hx with hx | ⟨hb, -⟩
    · exact h.uncut hx hkind hcur
    · exact hb
  stays := by
    intro x hx
    rcases mem_push.mp hx with hx | ⟨-, rfl⟩
    · exact h.stays x hx
    · exact hstays

/-! ## Blocks -/

/-- No block has the number `new`, and no tree was read for it. -/
structure Unused (spans : BlockId → Span) (stack : List Tree) (new : BlockId) : Prop where
  entry_ne : ∀ {b x}, x ∈ (spans b).entries → ∀ t ∈ x.2.postorder, t.block ≠ new
  stack_ne : ∀ root ∈ stack, ∀ t ∈ root.postorder, t.block ≠ new

/-- The blocks of `spans'` are those of `spans` and maybe the block `new`, and jumps apart all
their statements stood in `spans`. -/
structure Regrouped (spans spans' : BlockId → Span) (new : BlockId) : Prop where
  offset_eq : ∀ c, c ≠ new → (spans' c).offset = (spans c).offset
  stands : ∀ {c x}, x ∈ (spans' c).entries → x.2.kind ≠ .jmp → Stands spans x

section Regrouped

variable {spans' : BlockId → Span}

theorem Regrouped.standsStore (h : Regrouped spans spans' new) (hx : StandsStore spans' x) :
    StandsStore spans x := by
  obtain ⟨hkind, b, hb⟩ := hx
  exact ⟨hkind, (h.stands hb (by rw [hkind]; decide)).2⟩

theorem Unused.block_ne (h : Unused spans stack new) (hx : Stands spans x) : x.2.block ≠ new := by
  obtain ⟨b, hb⟩ := hx.2
  exact h.entry_ne hb x.2 (Tree.mem_postorder_self _)

/-- When blocks are regrouped, the statements have to be in order in each block, and nothing
else can go wrong. -/
theorem ArrangedUpTo.regroup (h : ArrangedUpTo spans cur stack start)
    (hnew : Unused spans stack new) (hcur : cur ≠ new) (hre : Regrouped spans spans' new)
    (hoffset : ∀ {b x}, x ∈ (spans' b).entries → x.2.kind ≠ .jmp → (spans' b).offset ≤ x.1)
    (hsorted : ∀ b, (spans' b).entries.Pairwise fun x y =>
      x.2.kind ≠ .jmp → y.2.kind ≠ .jmp → x.1 < y.1)
    (hclosed : ∀ b, (spans' b).entries.Pairwise fun x y =>
      x.2.kind.leaves = true → y.2.kind = .jmp ∨ y.2.kind = .branch)
    (hhome : ∀ {b x}, x ∈ (spans' b).entries → x.2.block = b ∨ (spans' b).entries = [x])
    (hlast : ∀ {b x}, (spans' b).entries.getLast? = some x → x.2.kind ≠ .jmp →
      ∃ c, (spans c).entries.getLast? = some x)
    (hentry : ∀ {b x}, x ∈ (spans' b).entries → x.1 < start)
    (hblock : ∀ {b}, (spans' b).entries ≠ [] → (spans' b).offset < start)
    (hcurHome : ∀ x ∈ (spans' cur).entries, x.2.block = cur) :
    ArrangedUpTo spans' cur stack start := by
  have hold : ∀ {x}, Stands spans' x → Stands spans x := by
    rintro x ⟨hkind, b, hx⟩
    exact hre.stands hx hkind
  have hoff : ∀ {x}, Stands spans x → (spans' x.2.block).offset = (spans x.2.block).offset :=
    fun hx => hre.offset_eq _ (hnew.block_ne hx)
  refine {
    arranged := {
      offset_le := hoffset
      sorted := hsorted
      closed := hclosed
      home := hhome
      store_le_last := ?_
      eq_of_offset_eq := fun hx hy hxy => h.arranged.eq_of_offset_eq (hold hx) (hold hy) hxy
      lt_offset := ?_
      store_offset_le := ?_ }
    entry_lt := hentry
    block_lt := hblock
    cur_le := by
      rw [hre.offset_eq cur hcur]
      exact h.cur_le
    cur_home := hcurHome
    lt_cur := ?_
    le_cur := ?_
    stack_le := ?_ }
  · intro b x y hend hkind hy hsame
    obtain ⟨c, hc⟩ := hlast hend hkind
    exact h.arranged.store_le_last hc hkind (hre.standsStore hy) hsame
  · intro x y hx hy hxy
    rw [hoff (hold hy)]
    exact h.arranged.lt_offset (hold hx) (hold hy) hxy
  · intro x y hy hx hyx t ht
    obtain ⟨b, hb⟩ := (hold hx).2
    rw [hoff (hre.standsStore hy).stands, hre.offset_eq _ (hnew.entry_ne hb t ht)]
    exact h.arranged.store_offset_le (hre.standsStore hy) (hold hx) hyx t ht
  · intro x hx
    rw [hre.offset_eq cur hcur]
    exact h.lt_cur (hold hx)
  · intro x hx
    rw [hoff (hold hx), hre.offset_eq cur hcur]
    exact h.le_cur (hold hx)
  · intro y hy root hroot t ht
    rw [hoff (hre.standsStore hy).stands, hre.offset_eq _ (hnew.stack_ne root hroot t ht)]
    exact h.stack_le (hre.standsStore hy) root hroot t ht

end Regrouped

/-- The spans with an empty block `new`. -/
def insert (spans : BlockId → Span) (new : BlockId) (offset : Int) : BlockId → Span :=
  Function.update spans new ⟨offset, []⟩

theorem offset_insert (c : BlockId) :
    (Listing.insert spans new offset c).offset = if c = new then offset else (spans c).offset := by
  rw [insert, Function.update_apply]
  split <;> rfl

theorem entries_insert (c : BlockId) :
    (Listing.insert spans new offset c).entries = if c = new then [] else (spans c).entries := by
  rw [insert, Function.update_apply]
  split <;> rfl

/-- An empty block is put in. -/
theorem ArrangedUpTo.insert (h : ArrangedUpTo spans cur stack start) (hnew : Unused spans stack new)
    (hcur : cur ≠ new) : ArrangedUpTo (Listing.insert spans new offset) cur stack start := by
  have hmem : ∀ {c x}, x ∈ (Listing.insert spans new offset c).entries →
      c ≠ new ∧ x ∈ (spans c).entries := by
    intro c x hx
    rw [entries_insert] at hx
    split at hx
    · cases hx
    · next hc => exact ⟨hc, hx⟩
  have hoffset : ∀ c, c ≠ new → (Listing.insert spans new offset c).offset = (spans c).offset := by
    intro c hc
    rw [offset_insert, if_neg hc]
  have hpairwise : ∀ {R : Int × Tree → Int × Tree → Prop},
      (∀ c, (spans c).entries.Pairwise R) →
      ∀ c, (Listing.insert spans new offset c).entries.Pairwise R := by
    intro R hold c
    rw [entries_insert]
    split
    · exact List.Pairwise.nil
    · exact hold c
  refine h.regroup hnew hcur ⟨hoffset, ?_⟩ ?_ (hpairwise h.arranged.sorted)
    (hpairwise h.arranged.closed) ?_ ?_ ?_ ?_ ?_
  · intro c x hx hkind
    exact ⟨hkind, c, (hmem hx).2⟩
  · intro c x hx hkind
    obtain ⟨hc, hx⟩ := hmem hx
    rw [hoffset c hc]
    exact h.arranged.offset_le hx hkind
  · intro c x hx
    obtain ⟨hc, hx⟩ := hmem hx
    rw [entries_insert, if_neg hc]
    exact h.arranged.home hx
  · intro c x hend _
    rw [entries_insert] at hend
    split at hend
    · cases hend
    · exact ⟨c, hend⟩
  · intro c x hx
    exact h.entry_lt (hmem hx).2
  · intro c hne
    obtain ⟨x, hx⟩ := List.exists_mem_of_ne_nil _ hne
    obtain ⟨hc, hx⟩ := hmem hx
    rw [hoffset c hc]
    exact h.block_lt (List.ne_nil_of_mem hx)
  · intro x hx
    exact h.cur_home x (hmem hx).2

/-- The spans when the last statement `x` of the block `b` was cut off: it is the block `new`,
and `jump` stands in its place. -/
def cut (spans : BlockId → Span) (b new : BlockId) (init : List (Int × Tree))
    (jump x : Int × Tree) : BlockId → Span :=
  Function.update (Function.update spans b ⟨(spans b).offset, init ++ [jump]⟩) new ⟨x.1, [x]⟩

section Cut

variable {init : List (Int × Tree)} {jump z : Int × Tree}

theorem offset_cut (c : BlockId) :
    (Listing.cut spans b new init jump x c).offset = if c = new then x.1 else (spans c).offset := by
  rw [cut, Function.update_apply, Function.update_apply]
  split
  · rfl
  · split
    · next hc => rw [hc]
    · rfl

theorem entries_cut (c : BlockId) :
    (Listing.cut spans b new init jump x c).entries =
      if c = new then [x] else if c = b then init ++ [jump] else (spans c).entries := by
  rw [cut, Function.update_apply, Function.update_apply]
  split
  · rfl
  · split <;> rfl

theorem mem_of_mem_cut (hentries : (spans b).entries = init ++ [x])
    (hz : z ∈ (Listing.cut spans b new init jump x c).entries) :
    c = new ∧ z = x ∨ c ≠ new ∧ (c = b ∧ z = jump ∨ z ∈ (spans c).entries) := by
  rw [entries_cut] at hz
  split at hz
  · next hc => exact Or.inl ⟨hc, List.mem_singleton.mp hz⟩
  · next hc =>
      refine Or.inr ⟨hc, ?_⟩
      split at hz
      · next hcb =>
          rcases List.mem_append.mp hz with hz | hz
          · refine Or.inr ?_
            rw [hcb, hentries]
            exact List.mem_append_left _ hz
          · exact Or.inl ⟨hcb, List.mem_singleton.mp hz⟩
      · exact Or.inr hz

/-- A relation along the statements of a block still holds if it holds towards the jump. -/
theorem pairwise_cut {R : Int × Tree → Int × Tree → Prop}
    (hentries : (spans b).entries = init ++ [x]) (hjump : ∀ y, R y jump)
    (hold : ∀ c, (spans c).entries.Pairwise R) (c : BlockId) :
    (Listing.cut spans b new init jump x c).entries.Pairwise R := by
  rw [entries_cut]
  split
  · exact List.pairwise_singleton _ _
  · split
    · have hb := hold b
      rw [hentries] at hb
      refine List.pairwise_append.mpr ⟨(List.pairwise_append.mp hb).1,
        List.pairwise_singleton _ _, ?_⟩
      intro y _ z hz
      rw [List.mem_singleton.mp hz]
      exact hjump y
    · exact hold c

/-- The statements in front of the one that is cut off stand where they were read. -/
theorem Arranged.block_eq_of_mem_init (h : Arranged spans)
    (hentries : (spans b).entries = init ++ [x]) (hz : z ∈ init) : z.2.block = b := by
  have hmem : z ∈ (spans b).entries := by simp [hentries, hz]
  refine (h.home hmem).resolve_right ?_
  intro hsingle
  have hlength := congrArg List.length (hentries.symm.trans hsingle)
  have hpos := List.length_pos_of_mem hz
  rw [List.length_append, List.length_singleton, List.length_singleton] at hlength
  omega

theorem Arranged.home_cut (h : Arranged spans) (hentries : (spans b).entries = init ++ [x])
    (hblock : jump.2.block = b) (hz : z ∈ (Listing.cut spans b new init jump x c).entries) :
    z.2.block = c ∨ (Listing.cut spans b new init jump x c).entries = [z] := by
  rw [entries_cut] at hz ⊢
  by_cases hc : c = new
  · rw [if_pos hc] at hz ⊢
    rw [List.mem_singleton.mp hz]
    exact Or.inr rfl
  · rw [if_neg hc] at hz ⊢
    by_cases hcb : c = b
    · rw [if_pos hcb] at hz
      rw [hcb]
      rcases List.mem_append.mp hz with hz | hz
      · exact Or.inl (h.block_eq_of_mem_init hentries hz)
      · exact Or.inl (by rw [List.mem_singleton.mp hz, hblock])
    · rw [if_neg hcb] at hz ⊢
      exact h.home hz

/-- The last statement of a block is cut off. -/
theorem ArrangedUpTo.cut (h : ArrangedUpTo spans cur stack start) (hnew : Unused spans stack new)
    (hcur : cur ≠ new) (hentries : (spans b).entries = init ++ [x]) (hkind : jump.2.kind = .jmp)
    (hblock : jump.2.block = b) (hjump : jump.1 < start) :
    ArrangedUpTo (Listing.cut spans b new init jump x) cur stack start := by
  have hx : x ∈ (spans b).entries := by simp [hentries]
  have hoffset : ∀ c, c ≠ new →
      (Listing.cut spans b new init jump x c).offset = (spans c).offset := by
    intro c hc
    rw [offset_cut, if_neg hc]
  refine h.regroup hnew hcur ⟨hoffset, ?_⟩ ?_ ?_ ?_ (h.arranged.home_cut hentries hblock)
    ?_ ?_ ?_ ?_
  · intro c z hz hz'
    rcases mem_of_mem_cut hentries hz with ⟨-, rfl⟩ | ⟨-, ⟨-, rfl⟩ | hz⟩
    · exact ⟨hz', b, hx⟩
    · exact absurd hkind hz'
    · exact ⟨hz', c, hz⟩
  · intro c z hz hz'
    rcases mem_of_mem_cut hentries hz with ⟨rfl, rfl⟩ | ⟨hc, ⟨-, rfl⟩ | hz⟩
    · exact Int.le_of_eq (by rw [offset_cut, if_pos rfl])
    · exact absurd hkind hz'
    · rw [hoffset c hc]
      exact h.arranged.offset_le hz hz'
  · exact pairwise_cut hentries (fun y _ hjmp => absurd hkind hjmp) h.arranged.sorted
  · exact pairwise_cut hentries (fun y _ => Or.inl hkind) h.arranged.closed
  · intro c z hend hz'
    rw [entries_cut] at hend
    split at hend
    · obtain rfl : x = z := by simpa using hend
      exact ⟨b, by rw [hentries, List.getLast?_concat]⟩
    · split at hend
      · obtain rfl : jump = z := by simpa using hend
        exact absurd hkind hz'
      · exact ⟨c, hend⟩
  · intro c z hz
    rcases mem_of_mem_cut hentries hz with ⟨-, rfl⟩ | ⟨-, ⟨-, rfl⟩ | hz⟩
    · exact h.entry_lt hx
    · exact hjump
    · exact h.entry_lt hz
  · intro c hne
    by_cases hc : c = new
    · rw [offset_cut, if_pos hc]
      exact h.entry_lt hx
    · rw [hoffset c hc]
      refine h.block_lt ?_
      rw [entries_cut, if_neg hc] at hne
      split at hne
      · next hcb => exact hcb ▸ List.ne_nil_of_mem hx
      · exact hne
  · intro z hz
    rcases mem_of_mem_cut hentries hz with ⟨hc, -⟩ | ⟨-, ⟨hb, rfl⟩ | hz⟩
    · exact absurd hc hcur
    · rw [hblock, hb]
    · exact h.cur_home z hz

end Cut

/-- Reading goes on in an empty block that starts where the last statement ended. -/
theorem ArrangedUpTo.leave (h : ArrangedUpTo spans cur stack start) (hne : (spans cur).entries ≠ [])
    (hempty : (spans b).entries = []) (hoffset : (spans b).offset = start) :
    ArrangedUpTo spans b stack start ∧ Open spans b := by
  have hlt := h.block_lt hne
  refine ⟨{ h with
    cur_le := Int.le_of_eq hoffset
    cur_home := by simp [hempty]
    lt_cur := ?_
    le_cur := ?_ }, ?_, by simp [hempty]⟩
  · intro x hx
    rw [hoffset]
    exact Or.inr (h.stands_lt hx)
  · intro x hx
    have hle := h.le_cur hx
    omega
  · intro c x hx hkind hb
    have hle := h.le_cur (x := x) ⟨hkind, c, hx⟩
    rw [hb] at hle
    omega

end Listing
end LinearScan
