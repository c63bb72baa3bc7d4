import LinearScan.Proofs.Layout

/-!
# Cutting a block in two

A look-up that lands on a statement inside a block cuts the block there.  The jump that
closes the front part takes the place of the block's last statement, wherever the cut is.
So the code of the block is kept if and only if the cut is at its last statement; a cut
further up leaves the front part whole and drops the last statement from both parts.

The statement is about every chain of blocks that can be built, those that were cut badly
before included.  `Threaded` collects what holds of the links in all of them.
-/

namespace LinearScan

/-- A chain whose member `i` is made to lead to `k`, which leads nowhere. -/
theorem Follows.cut
    {next next' : Nat → Option Nat} {start : Option Nat} {i k : Nat} {before after : List Nat}
    (h : Follows next start (before ++ i :: after)) (hi : next' i = some k) (hk : next' k = none)
    (heq : ∀ j ∈ before, next' j = next j) :
    Follows next' start (before ++ [i, k]) := by
  induction before generalizing start with
  | nil => exact ⟨h.1, hi, hk⟩
  | cons j before ih =>
      refine ⟨h.1, ?_⟩
      rw [heq j (by simp)]
      exact ih h.2 fun m hm => heq m (by simp [hm])

namespace Graph

variable {g g' : Graph} {b c d : BlockId} {s : StmtId} {offset : Int}

/-- The chains of blocks that can be built from one empty block at offset zero: trees are
made and appended to blocks, at any offsets, and blocks are looked up at any offsets. -/
inductive Grown : Graph → Prop where
  | fresh : Grown (({} : Graph).newChain)
  | edge {g : Graph} (hg : Grown g) (target : BlockId) : Grown (g.newEdge target).2
  | tree {g : Graph} (hg : Grown g) (kind : TreeKind) (operands : List Operand) (b : BlockId)
      (ts : List Tree) : Grown (g.newTree kind operands b ts).2
  | append {g : Graph} (hg : Grown g) (b : BlockId) (offset : Int) (t : Tree) :
      Grown (g.append b offset t)
  | lookup {g g' : Graph} {b : BlockId} {offset : Int} (hg : Grown g)
      (h : blockAt 0 offset g = .ok b g') : Grown g'

/-! ## Where a look-up lands -/

/-- Along `bs`, no block with a positive offset stands behind one with an offset that is as
large. -/
def Ascending (g : Graph) (bs : List BlockId) : Prop :=
  bs.Pairwise fun b c => 0 < (g.block c).offset → (g.block b).offset < (g.block c).offset

theorem Ascending.congr {bs : List BlockId} (h : g.Ascending bs)
    (heq : ∀ b ∈ bs, (g'.block b).offset = (g.block b).offset) :
    g'.Ascending bs := by
  refine List.Pairwise.imp_of_mem ?_ h
  intro b c hb hc hbc
  rwa [heq b hb, heq c hc]

/-- A search passes blocks that start before the offset, and stops where the next block
starts behind it. -/
theorem landing_passes (b : BlockId) (rest : List BlockId) :
    ∃ before after, b :: rest = before ++ g.landing offset b rest :: after ∧
      (∀ c ∈ before, (g.block c).offset < offset) ∧
      (before = [] ∨ (g.block (g.landing offset b rest)).offset ≤ offset) ∧
      ((g.block (g.landing offset b rest)).offset < offset →
        ∀ c ∈ after.head?, offset < (g.block c).offset) := by
  induction rest generalizing b with
  | nil => exact ⟨[], [], rfl, by simp, Or.inl rfl, by simp⟩
  | cons c rest ih =>
      rw [landing]
      by_cases hgo : (g.block b).offset < offset ∧ (g.block c).offset ≤ offset
      · rw [if_pos hgo]
        obtain ⟨before, after, hsplit, hpassed, hle, hstop⟩ := ih c
        refine ⟨b :: before, after, by rw [hsplit, List.cons_append], ?_, ?_, hstop⟩
        · intro d hd
          rcases List.mem_cons.mp hd with rfl | hd
          · exact hgo.1
          · exact hpassed d hd
        · rcases hle with rfl | hle
          · have hhead : c = g.landing offset c rest := by
              simpa using (List.cons.inj hsplit).1
            rw [← hhead]
            exact Or.inr hgo.2
          · exact Or.inr hle
      · rw [if_neg hgo]
        refine ⟨[], c :: rest, rfl, by simp, Or.inl rfl, ?_⟩
        intro hlt d hd
        obtain rfl : c = d := by simpa using hd
        by_contra hle
        exact hgo ⟨hlt, Int.not_lt.mp hle⟩

/-- A search finds the block that starts at a positive offset, if there is one. -/
theorem landing_offset_of_mem {rest : List BlockId} {e : BlockId}
    (hasc : g.Ascending (b :: rest)) (he : e ∈ b :: rest) (hoffset : (g.block e).offset = offset)
    (hpos : 0 < offset) :
    (g.block (g.landing offset b rest)).offset = offset := by
  induction rest generalizing b with
  | nil =>
      obtain rfl : e = b := by simpa using he
      exact hoffset
  | cons c rest ih =>
      obtain ⟨hb, hrest⟩ := List.pairwise_cons.mp hasc
      rw [landing]
      rcases List.mem_cons.mp he with rfl | he
      · rw [if_neg (fun h => by omega)]
        exact hoffset
      · have hbe : (g.block b).offset < offset := hoffset ▸ hb e he (hoffset ▸ hpos)
        have hce : (g.block c).offset ≤ offset := by
          rcases List.mem_cons.mp he with rfl | hmem
          · exact Int.le_of_eq hoffset
          · have hlt := (List.pairwise_cons.mp hrest).1 e hmem (hoffset ▸ hpos)
            omega
        rw [if_pos ⟨hbe, hce⟩]
        exact ih hrest he

/-- What a search that ended inside a block has found. -/
theorem locate_within {first : BlockId} (h : g.locate first offset = .ok (.within b s)) :
    g.landing offset first (g.blocksFrom first).tail = b ∧ (g.block b).offset ≠ offset ∧
      (g.block b).first ≠ none ∧ s ∈ g.stmtsOf b ∧ (g.stmt s).offset = offset := by
  simp only [locate] at h
  split at h
  · cases h
  · next hoffset =>
      split at h
      · cases h
      · next hfirst =>
          split at h
          · cases h
          · next r rest hrest =>
              split at h
              · cases h
              · next hle =>
                  injection h with h
                  injection h with hb hs
                  subst hb hs
                  refine ⟨rfl, hoffset, hfirst, ?_, ?_⟩
                  · exact (List.dropWhile_sublist _).subset (hrest ▸ List.mem_cons_self)
                  · have hnot := List.head?_dropWhile_not
                      (fun q => decide ((g.stmt q).offset < offset))
                      (g.stmtsOf (g.landing offset first (g.blocksFrom first).tail))
                    rw [hrest] at hnot
                    have hge : ¬ (g.stmt r).offset < offset := by simpa using hnot
                    omega

/-- What a search that ended behind a block has found. -/
theorem locate_behind {first : BlockId} (h : g.locate first offset = .ok (.behind b)) :
    g.landing offset first (g.blocksFrom first).tail = b ∧ (g.block b).offset ≠ offset := by
  simp only [locate] at h
  split at h
  · cases h
  · next hoffset =>
      split at h
      · cases h
      · split at h
        · injection h with h
          injection h with hb
          subst hb
          exact ⟨rfl, hoffset⟩
        · split at h <;> cases h

/-! ## The links of every chain -/

/-- The links of a chain of blocks, however it came about.  The chain of statements of a
block may run into those of other blocks, but the last statement that a block notes leads
nowhere, and the links backward are those forward, turned round, unless they were cut. -/
structure Threaded (g : Graph) : Prop where
  linked : g.Linked
  chained : g.Chained 0
  ascending : g.Ascending (g.blocksFrom 0)
  zero_offset : (g.block 0).offset = 0
  first_prev : ∀ {b s : Nat}, (g.block b).first = some s → (g.stmt s).prev = none
  last_of_first : ∀ {b : Nat}, (g.block b).first ≠ none → (g.block b).last ≠ none
  last_next : ∀ {b l : Nat}, (g.block b).last = some l → (g.stmt l).next = none
  prev_of_next : ∀ {r l : Nat}, (g.stmt r).next = some l →
    (g.stmt l).prev = some r ∨ (g.stmt l).prev = none
  prev_ne_last : ∀ {b c l r : Nat}, (g.block b).last = some l → (g.stmt l).prev = some r →
    (g.block c).last ≠ some r
  /-- A last statement without a link backward is the only one of its block, or else a block
  starts at its offset, so that no look-up lands on it. -/
  last_of_prev_none : ∀ {b l : Nat}, (g.block b).last = some l → (g.stmt l).prev = none →
    (g.block b).first = some l ∨ ∃ c < g.blockCount, (g.block c).offset = (g.stmt l).offset

namespace Threaded

theorem cons_tail (hg : g.Threaded) : 0 :: (g.blocksFrom 0).tail = g.blocksFrom 0 := by
  have hfollows := hg.chained.follows
  cases hbs : g.blocksFrom 0 with
  | nil =>
      rw [hbs] at hfollows
      cases hfollows
  | cons b bs =>
      rw [hbs] at hfollows
      rw [← Option.some.inj hfollows.1, List.tail_cons]

/-- The changes that touch neither blocks nor statements. -/
theorem congr (hg : g.Threaded) (hsame : g.SameBlocks g') (hlinked : g'.Linked) :
    g'.Threaded := by
  have hchain := hg.chained.congr g' hsame.blockCount_eq
    fun b => congrArg Block.next (hsame.block_eq b)
  exact {
    linked := hlinked
    chained := hchain.1
    ascending := by
      rw [hchain.2]
      exact hg.ascending.congr fun b _ => congrArg Block.offset (hsame.block_eq b)
    zero_offset := by rw [hsame.block_eq]; exact hg.zero_offset
    first_prev := by
      intro b s h
      rw [hsame.block_eq] at h
      rw [hsame.stmt_eq]
      exact hg.first_prev h
    last_of_first := by
      intro b h
      rw [hsame.block_eq] at h ⊢
      exact hg.last_of_first h
    last_next := by
      intro b l h
      rw [hsame.block_eq] at h
      rw [hsame.stmt_eq]
      exact hg.last_next h
    prev_of_next := by
      intro r l h
      rw [hsame.stmt_eq] at h ⊢
      exact hg.prev_of_next h
    prev_ne_last := by
      intro b c l r h hr
      rw [hsame.block_eq] at h ⊢
      rw [hsame.stmt_eq] at hr
      exact hg.prev_ne_last h hr
    last_of_prev_none := by
      intro b l h hr
      rw [hsame.block_eq] at h ⊢
      rw [hsame.stmt_eq] at hr ⊢
      rw [hsame.blockCount_eq]
      simp only [hsame.block_eq]
      exact hg.last_of_prev_none h hr }

theorem fresh : (({} : Graph).newChain).Threaded := by
  have hstmt : ∀ s, (({} : Graph).newChain).stmt s = default := by
    intro s
    simp [newChain, addBlock, stmt]
  have hchain : (({} : Graph).newChain).blocksFrom 0 = [0] :=
    Chained.blocksFrom_eq follows_newChain (by simp) fun b => by
      change b ∈ [0] ↔ b < 1
      simp
  exact {
    linked := Importer.WellFormed.start.linked
    chained := Importer.WellFormed.start.chained
    ascending := by
      rw [hchain]
      exact List.pairwise_singleton _ _
    zero_offset := congrArg Block.offset (block_newChain 0)
    first_prev := by simp [block_newChain]
    last_of_first := by simp [block_newChain]
    last_next := by simp [block_newChain]
    prev_of_next := by
      intro r l h
      rw [hstmt] at h
      cases h
    prev_ne_last := by simp [block_newChain]
    last_of_prev_none := by simp [block_newChain] }

theorem append (hg : g.Threaded) (b : BlockId) (offset : Int) (t : Tree) :
    (g.append b offset t).Threaded := by
  have hoffset : ∀ c, ((g.append b offset t).block c).offset = (g.block c).offset := by
    intro c
    rw [append_block]
    split <;> rfl
  have hchain := (hg.chained.congr _ (g.append_blockCount b offset t) fun c => by
    rw [append_block]
    split <;> rfl).2
  refine {
    linked := hg.linked.append b offset t
    chained := hg.chained.append b offset t
    ascending := ?_
    zero_offset := (hoffset 0).trans hg.zero_offset
    first_prev := ?_
    last_of_first := ?_
    last_next := ?_
    prev_of_next := ?_
    prev_ne_last := ?_
    last_of_prev_none := ?_ }
  · rw [hchain]
    exact hg.ascending.congr fun c _ => hoffset c
  · intro c r hr
    rw [append_block] at hr
    rw [append_stmt]
    have hold := @hg.first_prev c r
    have hlt := @hg.linked.first_lt c r
    grind
  · intro c hc
    rw [append_block] at hc ⊢
    have hold := @hg.last_of_first c
    grind
  · intro c l hl
    rw [append_block] at hl
    rw [append_stmt]
    have hold := @hg.last_next c l
    have hinj := @hg.linked.last_inj b c l
    have hlt := @hg.linked.last_lt b l
    grind
  · intro r l hr
    rw [append_stmt] at hr
    rw [append_stmt]
    have hold := @hg.prev_of_next r l
    have hlt := @hg.linked.next_gt r l
    have hlast := @hg.linked.last_lt b r
    grind
  · intro c d l r hl hr
    rw [append_block] at hl ⊢
    rw [append_stmt] at hr
    have hold := @hg.prev_ne_last c d l r
    have hinj := @hg.linked.last_inj b d r
    have hlt := @hg.linked.last_lt c l
    have hltr := @hg.linked.last_lt b r
    have hprev := @hg.linked.prev_lt l r
    grind
  · intro c l hl hprev
    rw [append_block] at hl
    rw [append_stmt] at hprev
    rw [append_block, append_blockCount, append_stmt_offset]
    simp only [hoffset]
    have hold := @hg.last_of_prev_none c l
    have hlt := @hg.linked.last_lt c l
    grind

section

variable (hg : g.Threaded) (hd : g.landing offset 0 (g.blocksFrom 0).tail = d)
  (hne : (g.block d).offset ≠ offset)
include hg hd hne

/-- The chain with a new block put in where a search stopped. -/
theorem ascending_insert (hkept : ∀ c < g.blockCount, (g'.block c).offset = (g.block c).offset)
    (hnew : (g'.block g.blockCount).offset = offset) :
    ∃ before after, g.blocksFrom 0 = before ++ d :: after ∧
      g'.Ascending (before ++ d :: g.blockCount :: after) := by
  obtain ⟨before, after, hsplit, hpassed, hle, hstop⟩ :=
    landing_passes 0 (g.blocksFrom 0).tail
  rw [hd] at hsplit hle hstop
  rw [hg.cons_tail] at hsplit
  refine ⟨before, after, hsplit, ?_⟩
  have hasc := hg.ascending
  rw [hsplit] at hasc
  have hlt : ∀ c ∈ before ++ d :: after, c < g.blockCount := by
    intro c hc
    exact (hg.chained.mem_iff c).mp (hsplit ▸ hc)
  obtain ⟨hbefore, hrest, hacross⟩ := List.pairwise_append.mp
    (hasc.congr fun c hc => hkept c (hlt c hc))
  obtain ⟨hdafter, hafter⟩ := List.pairwise_cons.mp hrest
  have hdlt : 0 < offset → (g.block d).offset < offset := by
    intro hpos
    rcases hle with rfl | hle
    · have hzero : d = 0 := by
        have hhead := hg.cons_tail
        rw [hsplit] at hhead
        exact (List.cons.inj hhead).1.symm
      rw [hzero, hg.zero_offset]
      exact hpos
    · omega
  have hlater : ∀ c ∈ after, 0 < (g.block c).offset → offset < (g.block c).offset := by
    intro c hc hpos
    by_cases hsign : 0 < offset
    · cases after with
      | nil => cases hc
      | cons e after =>
          have he := hstop (hdlt hsign) e rfl
          rcases List.mem_cons.mp hc with rfl | hc
          · exact he
          · have hec := (List.pairwise_cons.mp
              (List.pairwise_cons.mp (List.pairwise_append.mp hasc).2.1).2).1 c hc hpos
            omega
    · omega
  have hfront : ∀ c ∈ before ++ [d], 0 < offset → (g'.block c).offset < offset := by
    intro c hc hpos
    rcases List.mem_append.mp hc with hc | hc
    · rw [hkept c (hlt c (List.mem_append_left _ hc))]
      exact hpassed c hc
    · rw [List.mem_singleton.mp hc, hkept d (hlt d (by simp))]
      exact hdlt hpos
  refine List.pairwise_append.mpr ⟨hbefore, List.pairwise_cons.mpr ⟨?_, List.pairwise_cons.mpr
    ⟨?_, hafter⟩⟩, ?_⟩
  · intro c hc hpos
    rcases List.mem_cons.mp hc with rfl | hc
    · rw [hnew] at hpos ⊢
      exact hfront d (by simp) hpos
    · exact hdafter c hc hpos
  · intro c hc hpos
    have hclt := hlt c (by simp [hc])
    rw [hkept c hclt] at hpos ⊢
    rw [hnew]
    exact hlater c hc hpos
  · intro e he c hc hpos
    rcases List.mem_cons.mp hc with rfl | hc
    · exact hacross e he c (by simp) hpos
    · rcases List.mem_cons.mp hc with rfl | hc
      · rw [hnew] at hpos ⊢
        exact hfront e (by simp [he]) hpos
      · exact hacross e he c (by simp [hc]) hpos

theorem insertBehind : (g.insertBehind d offset).Threaded := by
  have hdlt : d < g.blockCount := hd ▸ landing_lt hg.chained
  have hkept : ∀ c < g.blockCount,
      ((g.insertBehind d offset).block c).offset = (g.block c).offset := by
    intro c hc
    rw [insertBehind_offset, if_neg (Nat.ne_of_lt hc)]
  have hnew : ((g.insertBehind d offset).block g.blockCount).offset = offset := by
    rw [insertBehind_offset, if_pos rfl]
  obtain ⟨before, after, hsplit, hascending⟩ := hg.ascending_insert hd hne hkept hnew
  have hinsert := hg.chained.insert hsplit (g.insertBehind_blockCount d offset)
    fun c => g.insertBehind_next d c offset
  refine {
    linked := hg.linked.insertBehind d offset
    chained := hinsert.1
    ascending := ?_
    zero_offset := (hkept 0 (Nat.zero_lt_of_lt hdlt)).trans hg.zero_offset
    first_prev := ?_
    last_of_first := ?_
    last_next := ?_
    prev_of_next := ?_
    prev_ne_last := ?_
    last_of_prev_none := ?_ }
  · rw [hinsert.2]
    exact hascending
  · intro c r hr
    rw [insertBehind_first] at hr
    rw [insertBehind_stmt]
    have hold := @hg.first_prev c r
    grind
  · intro c hc
    rw [insertBehind_first] at hc
    rw [insertBehind_last]
    have hold := @hg.last_of_first c
    grind
  · intro c l hl
    rw [insertBehind_last] at hl
    rw [insertBehind_stmt]
    have hold := @hg.last_next c l
    grind
  · intro r l hr
    rw [insertBehind_stmt] at hr ⊢
    exact hg.prev_of_next hr
  · intro c e l r hl hr
    rw [insertBehind_last] at hl ⊢
    rw [insertBehind_stmt] at hr
    have hold := @hg.prev_ne_last c e l r
    grind
  · intro c l hl hprev
    rw [insertBehind_last] at hl
    rw [insertBehind_stmt] at hprev ⊢
    rw [insertBehind_first, insertBehind_blockCount]
    have hc : c ≠ g.blockCount := by
      rintro rfl
      simp at hl
    rw [if_neg hc] at hl ⊢
    rcases hg.last_of_prev_none hl hprev with hfirst | ⟨e, he, hoffset⟩
    · exact Or.inl hfirst
    · exact Or.inr ⟨e, Nat.lt_succ_of_lt he, (hkept e he).trans hoffset⟩

end

/-- A block that is not empty notes a last statement. -/
theorem exists_last (hg : g.Threaded) (hs : s ∈ g.stmtsOf b) :
    ∃ l, (g.block b).last = some l := by
  refine Option.ne_none_iff_exists'.mp (hg.last_of_first ?_)
  intro hnone
  rw [stmtsOf_eq_nil hnone] at hs
  cases hs

/-- A block that starts with the last statement it notes has no other one. -/
theorem stmtsOf_eq_singleton (hg : g.Threaded) {l : StmtId}
    (hlast : (g.block b).last = some l) (hfirst : (g.block b).first = some l) :
    g.stmtsOf b = [l] := by
  refine (hg.linked.stmtsOf_spec b).1.unique ⟨hfirst, ?_⟩
  exact hg.last_next hlast

theorem split (hg : g.Threaded) (h : g.locate 0 offset = .ok (.within b s)) :
    (g.split b s offset).Threaded := by
  obtain ⟨hd, hne, -, hs, hoffset⟩ := locate_within h
  have hblt : b < g.blockCount := hd ▸ landing_lt hg.chained
  have hslt : s < g.stmtCount := hg.linked.lt_of_mem_stmtsOf hs
  obtain ⟨last, hlast⟩ := hg.exists_last hs
  have hbefore : g.splitBefore b = (g.stmt last).prev := by
    rw [splitBefore, hlast, Option.bind_some]
  have hkept : ∀ c < g.blockCount,
      ((g.split b s offset).block c).offset = (g.block c).offset := by
    intro c hc
    rw [split_offset, insertBehind_offset, if_neg (Nat.ne_of_lt hc)]
  have hnew : ((g.split b s offset).block g.blockCount).offset = offset := by
    rw [split_offset, insertBehind_offset, if_pos rfl]
  obtain ⟨before, after, hsplit, hascending⟩ := hg.ascending_insert hd hne hkept hnew
  have hinsert := hg.chained.insert hsplit (g.split_blockCount b s offset) fun c => by
    rw [split_next, insertBehind_next]
  have hbnew : b ≠ g.blockCount := Nat.ne_of_lt hblt
  have hlastlt : last < g.stmtCount := hg.linked.last_lt hlast
  refine {
    linked := hg.linked.split offset hblt hslt
    chained := hinsert.1
    ascending := ?_
    zero_offset := (hkept 0 (Nat.zero_lt_of_lt hblt)).trans hg.zero_offset
    first_prev := ?_
    last_of_first := ?_
    last_next := ?_
    prev_of_next := ?_
    prev_ne_last := ?_
    last_of_prev_none := ?_ }
  · rw [hinsert.2]
    exact hascending
  · intro c r hr
    rw [split_first _ _ _ _ _ hbnew] at hr
    rw [split_stmt]
    have hold := @hg.first_prev c r
    have hfront := @hg.first_prev b last
    have hlt := @hg.linked.first_lt c r
    grind
  · intro c hc
    rw [split_first _ _ _ _ _ hbnew] at hc
    rw [split_last]
    have hold := @hg.last_of_first c
    grind
  · intro c l hl
    rw [split_last] at hl
    rw [split_stmt]
    have hold := @hg.last_next c l
    have hrear := @hg.last_next b l
    have hprevc := @hg.prev_ne_last b c last l hlast
    have hprevb := @hg.prev_ne_last b b last l hlast
    have hprevlt := @hg.linked.prev_lt last l
    grind
  · intro r l hr
    rw [split_stmt] at hr
    rw [split_stmt]
    have hold := @hg.prev_of_next r l
    have hlt := @hg.linked.next_gt r l
    grind
  · intro c e l r hl hr
    rw [split_last] at hl ⊢
    rw [split_stmt] at hr
    have hold := @hg.prev_ne_last c e l r
    have hlc := @hg.linked.last_lt c l
    have hlb := @hg.linked.last_lt b l
    have hrear := @hg.prev_ne_last c b l r
    have hfront := @hg.prev_ne_last b e l r
    have hown := @hg.prev_ne_last b b l r
    have hjump := @hg.prev_ne_last b e last r hlast
    have hjumpb := @hg.prev_ne_last b b last r hlast
    have hprevlt := @hg.linked.prev_lt l r
    have hlastprev := @hg.linked.prev_lt last r
    grind
  · intro c l hl hprev
    rw [split_last] at hl
    rw [split_first _ _ _ _ _ hbnew, split_blockCount]
    have hstill : ∀ e < g.blockCount, (g.block e).offset = (g.stmt l).offset →
        ∃ e' < g.blockCount + 1, ((g.split b s offset).block e').offset = (g.stmt l).offset :=
      fun e he heq => ⟨e, Nat.lt_succ_of_lt he, (hkept e he).trans heq⟩
    by_cases hcb : c = b
    · -- The jump has no link backward only if it starts where the block starts.
      subst hcb
      rw [if_pos rfl] at hl
      obtain rfl : g.stmtCount = l := Option.some.inj hl
      have hnone : g.splitBefore c = none := by
        rw [split_stmt] at hprev
        grind
      refine Or.inr ⟨c, Nat.lt_succ_of_lt hblt, ?_⟩
      rw [hkept c hblt, split_stmt]
      simp only [hnone, splitOffset]
      grind
    · rw [if_neg hcb] at hl ⊢
      have hlt : l < g.stmtCount := by
        have hltb := @hg.linked.last_lt b l
        have hltc := @hg.linked.last_lt c l
        grind
      have hsame : ((g.split b s offset).stmt l).offset = (g.stmt l).offset := by
        rw [split_stmt]
        grind
      rw [hsame]
      by_cases hls : l = s
      · -- The rear part starts at the statement that has lost its link.
        subst hls
        exact Or.inr ⟨g.blockCount, Nat.lt_succ_self _, hnew.trans hoffset.symm⟩
      · have hprevl : (g.stmt l).prev = none := by
          rw [split_stmt] at hprev
          grind
        by_cases hcnew : c = g.blockCount
        · rw [if_pos hcnew] at hl
          rcases hg.last_of_prev_none hl hprevl with hfirst | ⟨e, he, heq⟩
          · rw [hg.stmtsOf_eq_singleton hl hfirst] at hs
            exact absurd (List.mem_singleton.mp hs).symm hls
          · exact Or.inr (hstill e he heq)
        · rw [if_neg hcnew] at hl ⊢
          rcases hg.last_of_prev_none hl hprevl with hfirst | ⟨e, he, heq⟩
          · exact Or.inl hfirst
          · exact Or.inr (hstill e he heq)

/-- What a look-up keeps. -/
theorem lookup (hg : g.Threaded) (h : blockAt 0 offset g = .ok b g') : g'.Threaded := by
  rcases blockAt_cases h with ⟨-, rfl⟩ | ⟨c, hplace, -, rfl⟩ | ⟨c, s, hplace, -, rfl⟩
  · exact hg
  · obtain ⟨hd, hne⟩ := locate_behind hplace
    exact hg.insertBehind hd hne
  · exact hg.split hplace

end Threaded

/-- The links of every chain that can be built. -/
theorem Grown.threaded (hg : g.Grown) : g.Threaded := by
  induction hg with
  | fresh => exact Threaded.fresh
  | edge hg target ih => exact ih.congr (sameBlocks_newEdge _ target) (ih.linked.newEdge target)
  | tree hg kind operands b ts ih =>
      exact ih.congr (sameBlocks_newTree _ kind operands b ts)
        (ih.linked.newTree kind operands b ts)
  | append hg b offset t ih => exact ih.append b offset t
  | lookup hg h ih => exact ih.lookup h

/-! ## What a cut keeps -/

/-- `g'` is `g` with the code of `b` cut in two: `b` is left with the statements `front` and
a jump to `new` behind them, `new` has the statements `rear`, and both note their last
statement. -/
structure CutInTwo (g g' : Graph) (b new : BlockId) (front rear : List StmtId) : Prop where
  front_eq : ∃ jump edge, g'.stmtsOf b = front ++ [jump] ∧ (g'.block b).last = some jump ∧
    (g'.stmt jump).tree.kind = .jmp ∧ (g'.stmt jump).tree.operands = [.edge edge new]
  rear_eq : g'.stmtsOf new = rear
  rear_last : (g'.block new).last = rear.getLast?
  kept : ∀ r ∈ front ++ rear, (g'.stmt r).tree = (g.stmt r).tree ∧
    (g'.stmt r).offset = (g.stmt r).offset

namespace Threaded

variable {front rear : List StmtId}

/-- Only the statement before the last one comes to lead to the jump. -/
theorem splitBefore_of_next (hg : g.Threaded) {r : StmtId}
    (h : ((g.split b s offset).stmt r).next = some g.stmtCount) :
    g.splitBefore b = some r := by
  have hold : (g.stmt r).next ≠ some g.stmtCount :=
    fun hnext => Nat.lt_irrefl _ (hg.linked.next_gt hnext).2
  rw [split_stmt] at h
  grind

/-- Where the code is kept, the cut was at the last statement. -/
theorem last_eq_of_cutInTwo
    (hg : g.Threaded) (hblt : b < g.blockCount) (hslt : s < g.stmtCount)
    (hstmts : g.stmtsOf b = front ++ s :: rear)
    (hcut : CutInTwo g (g.split b s offset) b g.blockCount front (s :: rear)) :
    (g.block b).last = some s := by
  obtain ⟨last, hlast⟩ := hg.exists_last (s := s) (b := b) (by simp [hstmts])
  have hbnew : b ≠ g.blockCount := Nat.ne_of_lt hblt
  obtain ⟨jump, -, hfront, hjump, -, -⟩ := hcut.front_eq
  obtain rfl : g.stmtCount = jump := by
    rw [split_last, if_pos rfl] at hjump
    exact Option.some.inj hjump
  have hend : (s :: rear).getLast? = some last := by
    rw [← hcut.rear_last, split_last, if_neg hbnew.symm, if_pos rfl, hlast]
  have hfollows := ((hg.linked.split offset hblt hslt).stmtsOf_spec b).1
  rw [hfront] at hfollows
  have hchain := (hg.linked.stmtsOf_spec b).1
  rw [hstmts] at hchain
  rcases List.eq_nil_or_concat front with rfl | ⟨front, r, rfl⟩
  · -- Nothing stands before the jump: the block started with its last statement.
    have hfirst : (g.block b).last = (g.block b).first := by
      by_contra hne
      have hjumps := hfollows.1
      rw [split_first _ _ _ _ _ hbnew, if_pos rfl, if_neg hne] at hjumps
      exact Nat.lt_irrefl _ (hg.linked.first_lt hjumps)
    rw [hfirst]
    exact hchain.1
  · -- The statement before the jump is the one before the last, and it stands before `s`.
    rw [List.concat_eq_append, List.append_assoc] at hfollows
    have hnext : ((g.split b s offset).stmt r).next = some g.stmtCount := hfollows.of_append.1
    have hprev : (g.stmt last).prev = some r := by
      have hbefore := hg.splitBefore_of_next hnext
      rwa [splitBefore, hlast, Option.bind_some] at hbefore
    rcases List.eq_nil_or_concat rear with rfl | ⟨rear, e, rfl⟩
    · rw [hlast]
      exact hend.symm
    · obtain rfl : e = last := by
        rw [List.concat_eq_append, ← List.cons_append, List.getLast?_concat] at hend
        exact Option.some.inj hend
      exfalso
      obtain ⟨q, rear', hq⟩ : ∃ q rear', s :: rear = rear' ++ [q] := by
        rcases List.eq_nil_or_concat (s :: rear) with h | ⟨rear', q, h⟩
        · cases h
        · exact ⟨q, rear', by rw [h, List.concat_eq_append]⟩
      have hlink : (g.stmt q).next = some e := by
        have hcons : s :: rear.concat e = rear' ++ q :: [e] := by
          rw [List.concat_eq_append, ← List.cons_append, hq, List.append_assoc]
          rfl
        rw [hcons, ← List.append_assoc] at hchain
        exact hchain.of_append.1
      have hqr : q = r := by
        rcases hg.prev_of_next hlink with h | h
        · exact (Option.some.inj (h.symm.trans hprev))
        · rw [hprev] at h
          cases h
      have hsorted := (hg.linked.stmtsOf_spec b).2.1
      rw [hstmts] at hsorted
      have hless := (List.pairwise_append.mp hsorted).2.2 r (by simp) q (by
        have hmem : q ∈ s :: rear := hq ▸ (by simp)
        rcases List.mem_cons.mp hmem with rfl | hmem
        · simp
        · simp [hmem])
      exact Nat.ne_of_gt hless hqr

section

variable (hg : g.Threaded) (h : g.locate 0 offset = .ok (.within b s))
  (hlt : (g.block b).offset < offset)
include hg h hlt

/-- No block starts where a look-up lands inside a block that starts before. -/
theorem offset_ne_of_within (hc : c < g.blockCount) : (g.block c).offset ≠ offset := by
  obtain ⟨hd, hne, -⟩ := locate_within h
  have hpos : 0 < offset := by
    by_contra hneg
    have hzero : b = 0 := by
      rw [← hd]
      cases (g.blocksFrom 0).tail with
      | nil => rfl
      | cons e rest =>
          rw [landing, if_neg]
          rw [hg.zero_offset]
          exact fun hgo => hneg hgo.1
    rw [hzero, hg.zero_offset] at hlt
    exact hneg hlt
  intro heq
  have hasc := hg.ascending
  have hmem := (hg.chained.mem_iff c).mpr hc
  rw [← hg.cons_tail] at hasc hmem
  have hfound := landing_offset_of_mem hasc hmem heq hpos
  rw [hd] at hfound
  exact hne hfound

/-- Where a look-up lands on the last statement of a block, the links lead back from it. -/
theorem prev_of_within_last (hlast : (g.block b).last = some s)
    (hfirst : (g.block b).first ≠ some s) {q : StmtId} (hq : (g.stmt q).next = some s) :
    (g.stmt s).prev = some q := by
  refine (hg.prev_of_next hq).resolve_right ?_
  intro hnone
  rcases hg.last_of_prev_none hlast hnone with hstart | ⟨c, hc, heq⟩
  · exact hfirst hstart
  · exact hg.offset_ne_of_within h hlt hc (heq.trans (locate_within h).2.2.2.2)

/-- The jump that is put in when a block is cut at its last statement comes behind the statement
before that one. -/
theorem splitBefore_eq_getLast? (hstmts : g.stmtsOf b = front ++ [s])
    (hlast : (g.block b).last = some s) : g.splitBefore b = front.getLast? := by
  have hchain := (hg.linked.stmtsOf_spec b).1
  rw [hstmts] at hchain
  rw [splitBefore, hlast, Option.bind_some]
  rcases List.eq_nil_or_concat front with rfl | ⟨front, q, rfl⟩
  · exact hg.first_prev hchain.1
  · have hfirst : (g.block b).first ≠ some s := by
      intro heq
      have honly := hg.stmtsOf_eq_singleton hlast heq
      rw [hstmts] at honly
      simpa using congrArg List.length honly
    rw [List.concat_eq_append, List.append_assoc] at hchain
    rw [List.concat_eq_append, List.getLast?_concat]
    exact hg.prev_of_within_last h hlt hlast hfirst hchain.of_append.1

/-- A cut at the last statement keeps the code. -/
theorem cutInTwo_of_last_eq (hstmts : g.stmtsOf b = front ++ s :: rear)
    (hlast : (g.block b).last = some s) :
    CutInTwo g (g.split b s offset) b g.blockCount front (s :: rear) := by
  have hblt : b < g.blockCount := (locate_within h).1 ▸ landing_lt hg.chained
  have hslt : s < g.stmtCount := hg.linked.last_lt hlast
  have hbnew : b ≠ g.blockCount := Nat.ne_of_lt hblt
  have hlinked := hg.linked.split offset hblt hslt
  obtain ⟨hchain, hsorted, hbound⟩ := hg.linked.stmtsOf_spec b
  rw [hstmts] at hchain hsorted hbound
  -- The last statement leads nowhere, so nothing follows it.
  obtain rfl : rear = [] := by
    have hrest := hchain.of_append
    simp only [hg.last_next hlast] at hrest
    exact hrest.unique rfl
  have hbefore : g.splitBefore b = (g.stmt s).prev := by
    rw [splitBefore, hlast, Option.bind_some]
  have hprev_ne : g.splitBefore b ≠ some s :=
    fun heq => hg.prev_ne_last hlast (hbefore ▸ heq) hlast
  have hjump_ne : g.splitBefore b ≠ some g.stmtCount :=
    fun heq => Nat.lt_irrefl _ (hg.linked.prev_lt (hbefore ▸ heq))
  have hjump : (g.split b s offset).stmt g.stmtCount =
      { offset := g.splitOffset b, prev := g.splitBefore b, tree := g.splitJump b } := by
    rw [split_stmt]
    simp only [hjump_ne, if_false, if_true, Nat.ne_of_gt hslt]
  have hjump_next : ((g.split b s offset).stmt g.stmtCount).next = none := by
    rw [hjump]
  have hfront : (g.split b s offset).stmtsOf b = front ++ [g.stmtCount] := by
    refine (hlinked.stmtsOf_spec b).1.unique ?_
    rw [split_first _ _ _ _ _ hbnew, if_pos rfl]
    rcases List.eq_nil_or_concat front with rfl | ⟨front, q, rfl⟩
    · rw [if_pos (hlast.trans hchain.1.symm)]
      exact ⟨rfl, hjump_next⟩
    · rw [List.concat_eq_append, List.append_assoc] at hchain
      have hfirst : (g.block b).first ≠ some s := by
        intro heq
        have honly := hg.stmtsOf_eq_singleton hlast heq
        rw [hstmts] at honly
        simpa using congrArg List.length honly
      have hprev : g.splitBefore b = some q := by
        rw [hg.splitBefore_eq_getLast? h hlt hstmts hlast, List.concat_eq_append,
          List.getLast?_concat]
      have hends : (g.block b).last ≠ (g.block b).first :=
        fun heq => hfirst (heq.symm.trans hlast)
      rw [if_neg hends, List.concat_eq_append, List.append_assoc]
      refine hchain.cut ?_ hjump_next ?_
      · rw [split_stmt]
        grind
      · intro j hj
        have hjq : j < q := by
          rw [List.concat_eq_append] at hsorted
          exact (List.pairwise_append.mp (List.pairwise_append.mp hsorted).1).2.2 j hj q (by simp)
        have hjlt : j < g.stmtCount := hbound j (by simp [hj])
        rw [split_stmt]
        grind
  refine ⟨⟨g.stmtCount, g.edgeCount, hfront, ?_, ?_, ?_⟩, ?_, ?_, ?_⟩
  · rw [split_last, if_pos rfl]
  · rw [hjump]
    rfl
  · rw [hjump]
    rfl
  · refine (hlinked.stmtsOf_spec _).1.unique ?_
    rw [split_first _ _ _ _ _ hbnew, if_neg hbnew.symm, if_pos rfl]
    refine ⟨rfl, ?_⟩
    simp only [split_stmt, hprev_ne, if_false, if_true, Nat.ne_of_lt hslt]
    exact hg.last_next hlast
  · rw [split_last, if_neg hbnew.symm, if_pos rfl, hlast]
    rfl
  · intro r hr
    have hrlt := hbound r (by simpa using hr)
    rw [split_stmt]
    grind

end

end Threaded

/-- A look-up that lands inside a block cuts the code of the block in two if and only if it
lands on the last statement that the block notes. -/
theorem Grown.cutInTwo_iff
    (hg : g.Grown) (h : g.locate 0 offset = .ok (.within b s)) (hlt : (g.block b).offset < offset)
    {front rear : List StmtId} (hstmts : g.stmtsOf b = front ++ s :: rear) :
    ∃ new g', blockAt 0 offset g = .ok new g' ∧
      (CutInTwo g g' b new front (s :: rear) ↔ (g.block b).last = some s) := by
  have hthreaded := hg.threaded
  have hblt : b < g.blockCount := (locate_within h).1 ▸ landing_lt hthreaded.chained
  have hslt : s < g.stmtCount := hthreaded.linked.lt_of_mem_stmtsOf (locate_within h).2.2.2.1
  refine ⟨g.blockCount, g.split b s offset, by rw [blockAt_apply, h], ?_, ?_⟩
  · exact hthreaded.last_eq_of_cutInTwo hblt hslt hstmts
  · exact hthreaded.cutInTwo_of_last_eq h hlt hstmts

end Graph

namespace Samples

/-- A statement that makes a value and drops it, at the end of the first block. -/
def addDiscard (g : Graph) (offset : Int) : Graph :=
  let (value, g) := g.newTree .const [.literal (.num offset)] 0 []
  let (stmt, g) := g.newTree .discard [] 0 [value]
  g.append 0 offset stmt

/-- One block, with a statement at each of the offsets. -/
def discards (offsets : List Int) : Graph :=
  offsets.foldl addDiscard ({} : Graph).newChain

theorem grown_discards (offsets : List Int) : (discards offsets).Grown := by
  refine List.foldlRecOn offsets addDiscard Graph.Grown.fresh ?_
  intro g hg offset _
  exact .append (.tree (.tree hg _ _ _ _) _ _ _ _) _ _ _

end Samples

/-- A cut at the last of three statements keeps the code. -/
theorem Graph.cutInTwo_last_of_three :
    (Samples.discards [0, 2, 4]).locate 0 4 = .ok (.within 0 2) ∧
      ∃ new g', Graph.blockAt 0 4 (Samples.discards [0, 2, 4]) = .ok new g' ∧
        (Graph.CutInTwo (Samples.discards [0, 2, 4]) g' 0 new [0, 1] [2] ↔
          ((Samples.discards [0, 2, 4]).block 0).last = some 2) :=
  ⟨by rfl, Graph.Grown.cutInTwo_iff (Samples.grown_discards [0, 2, 4]) (by rfl) (by decide)
    (by rfl)⟩

/-- A cut at the second of three statements leaves all but the last statement to the front
part as well, and the rear part without the last one. -/
theorem Graph.not_cutInTwo_second_of_three :
    (Samples.discards [0, 2, 4]).Grown ∧
      ∃ g', Graph.blockAt 0 2 (Samples.discards [0, 2, 4]) = .ok 1 g' ∧
      (Samples.discards [0, 2, 4]).stmtsOf 0 = [0, 1, 2] ∧
      g'.stmtsOf 0 = [0, 1, 3] ∧ g'.stmtsOf 1 = [1, 3] ∧ (g'.block 1).last = some 2 ∧
      ¬ Graph.CutInTwo (Samples.discards [0, 2, 4]) g' 0 1 [0] [1, 2] := by
  refine ⟨Samples.grown_discards [0, 2, 4], (Samples.discards [0, 2, 4]).split 0 1 2,
    by rfl, by rfl, by rfl, by rfl, by rfl, ?_⟩
  intro hcut
  exact absurd hcut.rear_eq (by decide)

end LinearScan
