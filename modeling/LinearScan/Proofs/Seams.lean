import LinearScan.Proofs.Reading
import LinearScan.Proofs.Splitting

/-!
# Look-ups at seams

A seam is a place at which the code can be cut without loss: the start of the program,
behind an instruction that leaves its block, and, once a block has been left, where its
last statement starts.  When all jumps lead to seams, the chain of blocks keeps a simple
shape while a program is read, and a look-up fails in one case only: when it lands in a
block that has no statement yet.
-/

namespace LinearScan

namespace Graph

variable {g g' : Graph} {b c : BlockId} {s : StmtId} {offset : Int}

/-! ## The entries of a block -/

/-- The statements of a block, each as its offset and its tree. -/
def entries (g : Graph) (b : BlockId) : List (Int × Tree) :=
  (g.stmtsOf b).map fun s => ((g.stmt s).offset, (g.stmt s).tree)

theorem treesOf_eq_flatMap_entries (g : Graph) (b : BlockId) :
    g.treesOf b = (g.entries b).flatMap fun x => x.2.postorder := by
  rw [treesOf, entries, List.flatMap_map]

theorem entries_eq_nil_iff (hg : g.Linked) : g.entries b = [] ↔ (g.block b).first = none := by
  rw [entries, List.map_eq_nil_iff]
  constructor
  · intro hnil
    have hfollows := (hg.stmtsOf_spec b).1
    rw [hnil] at hfollows
    exact hfollows
  · exact stmtsOf_eq_nil

theorem SameBlocks.entries_eq (h : g.SameBlocks g') (b : BlockId) :
    g'.entries b = g.entries b := by
  simp only [entries, h.stmtsOf_eq, h.stmt_eq]

theorem entries_append (he : g.Ended) (hg : g.Linked) (b c : BlockId) (offset : Int) (t : Tree) :
    (g.append b offset t).entries c =
      if c = b then g.entries b ++ [(offset, t)] else g.entries c := by
  have hold : ∀ d, (g.stmtsOf d).map (fun r => (((g.append b offset t).stmt r).offset,
      ((g.append b offset t).stmt r).tree)) = g.entries d := by
    intro d
    refine List.map_congr_left ?_
    intro r hr
    have hne := Nat.ne_of_lt (hg.lt_of_mem_stmtsOf hr)
    rw [append_stmt_offset, append_stmt_tree, if_neg hne, if_neg hne]
  rw [entries, stmtsOf_append he hg]
  by_cases hcb : c = b
  · rw [if_pos hcb, if_pos hcb, List.map_append, hold, List.map_singleton, append_stmt_offset,
      append_stmt_tree, if_pos rfl, if_pos rfl]
  · rw [if_neg hcb, if_neg hcb, hold]

theorem entries_insertBehind (b c : BlockId) (offset : Int) :
    (g.insertBehind b offset).entries c = if c = g.blockCount then [] else g.entries c := by
  by_cases hc : c = g.blockCount
  · rw [if_pos hc, entries, stmtsOf_eq_nil, List.map_nil]
    rw [insertBehind_first, if_pos hc]
  · rw [if_neg hc, entries, stmtsOf_congr (g.insertBehind_stmt b offset)
      (g.insertBehind_stmtCount b offset)]
    · simp only [insertBehind_stmt, entries]
    · rw [insertBehind_first, if_neg hc]

/-- No statement is in two blocks. -/
theorem Ended.eq_of_mem_stmtsOf (he : g.Ended) (hg : g.Linked)
    (hb : s ∈ g.stmtsOf b) (hc : s ∈ g.stmtsOf c) : b = c := by
  obtain ⟨before, after, hsplit⟩ := List.append_of_mem hb
  obtain ⟨before', after', hsplit'⟩ := List.append_of_mem hc
  have hafter : after = after' := by
    have hfollows := (hg.stmtsOf_spec b).1
    have hfollows' := (hg.stmtsOf_spec c).1
    rw [hsplit] at hfollows
    rw [hsplit'] at hfollows'
    exact hfollows.of_append.unique hfollows'.of_append
  subst hafter
  obtain ⟨l, hl⟩ : ∃ l, (s :: after).getLast? = some l :=
    ⟨(s :: after).getLast (List.cons_ne_nil _ _), List.getLast?_eq_some_getLast _⟩
  refine hg.last_inj (s := l) ?_ ?_
  · rw [he b, hsplit, List.getLast?_append, hl]
    rfl
  · rw [he c, hsplit', List.getLast?_append, hl]
    rfl

/-! ## What a search finds, by where it lands -/

section Locate

variable {first d : BlockId} (hd : g.landing offset first (g.blocksFrom first).tail = d)

include hd

theorem locate_of_offset_eq (hoffset : (g.block d).offset = offset) :
    g.locate first offset = .ok (.existing d) := by
  simp only [locate, hd, if_pos hoffset]

theorem locate_of_first_eq_none (hoffset : (g.block d).offset ≠ offset)
    (hfirst : (g.block d).first = none) :
    g.locate first offset = .error .emptyBlock := by
  simp only [locate, hd, if_neg hoffset, if_pos hfirst]

theorem locate_of_forall_lt (hoffset : (g.block d).offset ≠ offset)
    (hfirst : (g.block d).first ≠ none) (hlt : ∀ s ∈ g.stmtsOf d, (g.stmt s).offset < offset) :
    g.locate first offset = .ok (.behind d) := by
  have hdrop : (g.stmtsOf d).dropWhile (fun s => (g.stmt s).offset < offset) = [] := by
    rw [List.dropWhile_eq_nil_iff]
    intro s hs
    exact decide_eq_true (hlt s hs)
  simp only [locate, hd, if_neg hoffset, if_neg hfirst, hdrop]

theorem locate_of_stmt_offset_eq (hoffset : (g.block d).offset ≠ offset)
    {front rear : List StmtId} (hstmts : g.stmtsOf d = front ++ s :: rear)
    (hlt : ∀ r ∈ front, (g.stmt r).offset < offset) (hs : (g.stmt s).offset = offset) :
    g.locate first offset = .ok (.within d s) := by
  have hfirst : (g.block d).first ≠ none := by
    intro hnone
    rw [stmtsOf_eq_nil hnone] at hstmts
    simp at hstmts
  have hdrop : (g.stmtsOf d).dropWhile (fun s => (g.stmt s).offset < offset) = s :: rear := by
    rw [hstmts, List.dropWhile_append_of_pos fun r hr => decide_eq_true (hlt r hr),
      List.dropWhile_cons_of_neg]
    simp [hs]
  simp only [locate, hd, if_neg hoffset, if_neg hfirst, hdrop, hs, if_neg (Int.lt_irrefl _)]

end Locate

/-! ## A cut at the last statement -/

section

variable (hg : g.Threaded) (he : g.Ended)
include hg he

/-- The links lead back from the last statement of a block to the one before it. -/
theorem Threaded.stmtsOf_of_prev_last {l r : StmtId} (hlast : (g.block b).last = some l)
    (hprev : (g.stmt l).prev = some r) : ∃ before, g.stmtsOf b = before ++ [r, l] := by
  obtain ⟨before, hstmts⟩ := List.getLast?_eq_some_iff.mp ((he b).symm.trans hlast)
  have hchain := (hg.linked.stmtsOf_spec b).1
  rcases List.eq_nil_or_concat before with rfl | ⟨before, q, rfl⟩
  · rw [hstmts] at hchain
    rw [hg.first_prev hchain.1] at hprev
    cases hprev
  · rw [hstmts, List.concat_eq_append, List.append_assoc] at hchain
    rcases hg.prev_of_next hchain.of_append.1 with hq | hnone
    · obtain rfl : q = r := Option.some.inj (hq.symm.trans hprev)
      exact ⟨before, by rw [hstmts, List.concat_eq_append, List.append_assoc]; rfl⟩
    · rw [hnone] at hprev
      cases hprev

section

variable (h : g.locate 0 offset = .ok (.within b s))
include h

/-- A cut at the last statement of `b` leaves the statements of other blocks. -/
theorem stmtsOf_split_of_ne (hlast : (g.block b).last = some s) (hcb : c ≠ b)
    (hcnew : c ≠ g.blockCount) : (g.split b s offset).stmtsOf c = g.stmtsOf c := by
  have hblt : b < g.blockCount := (locate_within h).1 ▸ landing_lt hg.chained
  have hslt : s < g.stmtCount := hg.linked.last_lt hlast
  refine ((hg.linked.split offset hblt hslt).stmtsOf_spec c).1.unique ?_
  rw [split_first _ _ _ _ _ (Nat.ne_of_lt hblt), if_neg hcb, if_neg hcnew]
  refine (hg.linked.stmtsOf_spec c).1.congr ?_
  intro r hr
  -- Only the statement before the last one of `b` gets another link, and it is not in `c`.
  have hne : g.splitBefore b ≠ some r := by
    intro hbefore
    rw [splitBefore, hlast, Option.bind_some] at hbefore
    refine hcb (he.eq_of_mem_stmtsOf hg.linked hr ?_)
    obtain ⟨before, hstmts⟩ := hg.stmtsOf_of_prev_last he hlast hbefore
    simp [hstmts]
  have hrlt := hg.linked.lt_of_mem_stmtsOf hr
  rw [split_stmt]
  grind

theorem Ended.split (hlt : (g.block b).offset < offset) (hlast : (g.block b).last = some s) :
    (g.split b s offset).Ended := by
  obtain ⟨front, hstmts⟩ := List.getLast?_eq_some_iff.mp ((he b).symm.trans hlast)
  have hcut := hg.cutInTwo_of_last_eq h hlt hstmts hlast
  obtain ⟨jump, -, hfront, hjump, -⟩ := hcut.front_eq
  intro c
  by_cases hcb : c = b
  · rw [hcb, hjump, hfront, List.getLast?_concat]
  · by_cases hcnew : c = g.blockCount
    · rw [hcnew, hcut.rear_eq, hcut.rear_last]
    · rw [stmtsOf_split_of_ne hg he h hlast hcb hcnew, split_last, if_neg hcb, if_neg hcnew]
      exact he c

/-- What a cut at the last statement does to the entries. -/
theorem entries_split (hlt : (g.block b).offset < offset) (hlast : (g.block b).last = some s)
    {before : List (Int × Tree)} {t : Tree} (hentries : g.entries b = before ++ [(offset, t)]) :
    (g.split b s offset).entries b = before ++ [(g.splitOffset b, g.splitJump b)] ∧
      (g.split b s offset).entries g.blockCount = [(offset, t)] ∧
      ∀ c, c ≠ b → c ≠ g.blockCount → (g.split b s offset).entries c = g.entries c := by
  obtain ⟨front, hstmts⟩ := List.getLast?_eq_some_iff.mp ((he b).symm.trans hlast)
  have hcut := hg.cutInTwo_of_last_eq h hlt hstmts hlast
  have hkept : ∀ ss : List StmtId, (∀ r ∈ ss, r ∈ front ++ [s]) →
      ss.map (fun r => (((g.split b s offset).stmt r).offset,
        ((g.split b s offset).stmt r).tree)) =
        ss.map fun r => ((g.stmt r).offset, (g.stmt r).tree) := by
    intro ss hss
    refine List.map_congr_left ?_
    intro r hr
    obtain ⟨htree, hoffset⟩ := hcut.kept r (hss r hr)
    rw [htree, hoffset]
  rw [entries, hstmts, List.map_append, List.map_singleton] at hentries
  obtain ⟨hbefore, hsame⟩ := List.append_inj' hentries rfl
  refine ⟨?_, ?_, ?_⟩
  · obtain ⟨jump, -, hfront, hjump, -, -⟩ := hcut.front_eq
    obtain rfl : g.stmtCount = jump := by
      rw [split_last, if_pos rfl] at hjump
      exact Option.some.inj hjump
    have hslt := hg.linked.last_lt hlast
    have hkind : ((g.split b s offset).stmt g.stmtCount).offset = g.splitOffset b ∧
        ((g.split b s offset).stmt g.stmtCount).tree = g.splitJump b := by
      rw [split_stmt]
      grind
    rw [entries, hfront, List.map_append, hkept front fun r hr => List.mem_append_left _ hr,
      hbefore, List.map_singleton, hkind.1, hkind.2]
  · rw [entries, hcut.rear_eq, hkept [s] (by simp), List.map_singleton]
    exact hsame
  · intro c hcb hcnew
    rw [entries, stmtsOf_split_of_ne hg he h hlast hcb hcnew]
    refine List.map_congr_left ?_
    intro r hr
    have hrlt := hg.linked.lt_of_mem_stmtsOf hr
    rw [split_stmt]
    grind

/-- The jump that a cut at the last statement puts in has the offset of the statement before it,
or that of the block. -/
theorem splitOffset_eq (hlt : (g.block b).offset < offset) (hlast : (g.block b).last = some s)
    {before : List (Int × Tree)} {t : Tree} (hentries : g.entries b = before ++ [(offset, t)]) :
    g.splitOffset b = (before.getLast?.map Prod.fst).getD (g.block b).offset := by
  obtain ⟨front, hstmts⟩ := List.getLast?_eq_some_iff.mp ((he b).symm.trans hlast)
  rw [entries, hstmts, List.map_append, List.map_singleton] at hentries
  obtain ⟨rfl, -⟩ := List.append_inj' hentries rfl
  rw [splitOffset, hg.splitBefore_eq_getLast? h hlt hstmts hlast, List.getLast?_map]
  cases front.getLast? <;> rfl

end

end

end Graph

/-! ## Spans -/

/-- What a look-up can see of a block. -/
structure Span where
  offset : Int
  entries : List (Int × Tree)

/-- The span with one more statement at its end. -/
def Span.push (r : Span) (place : Int) (t : Tree) : Span :=
  ⟨r.offset, r.entries ++ [(place, t)]⟩

/-- The block `b` as a span. -/
def Graph.span (g : Graph) (b : BlockId) : Span :=
  ⟨(g.block b).offset, g.entries b⟩

/-- The chain of blocks of `g` shows the spans `done`, `cur` and `ahead`, where `cur` is the
span of the block `current`. -/
structure Shows
    (g : Graph) (current : BlockId) (done : List Span) (cur : Span) (ahead : List Span) : Prop where
  grown : g.Grown
  ended : g.Ended
  chain : ∃ before after, g.blocksFrom 0 = before ++ current :: after ∧
    before.map g.span = done ∧ g.span current = cur ∧ after.map g.span = ahead

/-- A list has one last member with a property. -/
theorem eq_of_last_split
    {α : Type} {P : α → Prop} {x y : α} {before before' after after' : List α}
    (h : before ++ x :: after = before' ++ y :: after') (hx : P x) (hy : P y)
    (hafter : ∀ z ∈ after, ¬ P z) (hafter' : ∀ z ∈ after', ¬ P z) :
    before = before' ∧ x = y ∧ after = after' := by
  rcases List.append_eq_append_iff.mp h with ⟨rest, hb, hrest⟩ | ⟨rest, hb, hrest⟩
  · cases rest with
    | nil => simp_all
    | cons z rest =>
        obtain ⟨rfl, hafter₁⟩ := List.cons.inj hrest
        exact absurd hy (hafter y (by simp [hafter₁]))
  · cases rest with
    | nil => simp_all
    | cons z rest =>
        obtain ⟨rfl, hafter₁⟩ := List.cons.inj hrest
        exact absurd hx (hafter' x (by simp [hafter₁]))

namespace Shows

variable {g g' : Graph} {current : BlockId} {done ahead : List Span} {cur : Span} {offset : Int}

section

variable (h : Shows g current done cur ahead)
include h

theorem map_chain : (g.blocksFrom 0).map g.span = done ++ cur :: ahead := by
  obtain ⟨before, after, hchain, rfl, rfl, rfl⟩ := h.chain
  rw [hchain, List.map_append, List.map_cons]

/-- The changes that touch neither blocks nor statements. -/
theorem congr (hsame : g.SameBlocks g') (hg' : g'.Grown) : Shows g' current done cur ahead := by
  have hspan : g'.span = g.span := by
    funext b
    rw [Graph.span, Graph.span, hsame.block_eq, hsame.entries_eq]
  have hchain := (h.grown.threaded.chained.congr g' hsame.blockCount_eq
    fun b => congrArg Block.next (hsame.block_eq b)).2
  refine ⟨hg', h.ended.congr hsame, ?_⟩
  rw [hchain, hspan]
  exact h.chain

/-- A statement is put at the end of the current block. -/
theorem append (offset : Int) (t : Tree) :
    Shows (g.append current offset t) current done (cur.push offset t) ahead := by
  obtain ⟨before, after, hchain, rfl, rfl, rfl⟩ := h.chain
  have hthreaded := h.grown.threaded
  have hnodup : (before ++ current :: after).Nodup := hchain ▸ hthreaded.chained.nodup
  have hoffset : ∀ c, ((g.append current offset t).block c).offset = (g.block c).offset := by
    intro c
    rw [Graph.append_block]
    split <;> rfl
  have hspan : ∀ c, c ≠ current → (g.append current offset t).span c = g.span c := by
    intro c hc
    rw [Graph.span, Graph.span, hoffset, Graph.entries_append h.ended hthreaded.linked, if_neg hc]
  have hchain' := (hthreaded.chained.congr _ (g.append_blockCount current offset t) fun c => by
    rw [Graph.append_block]
    split <;> rfl).2
  refine ⟨h.grown.append current offset t, h.ended.append hthreaded.linked current offset t,
    before, after, hchain'.trans hchain, ?_, ?_, ?_⟩
  · refine List.map_congr_left fun c hc => hspan c ?_
    rintro rfl
    exact (List.nodup_append.mp hnodup).2.2 c hc c (by simp) rfl
  · rw [Graph.span, hoffset, Graph.entries_append h.ended hthreaded.linked, if_pos rfl]
    rfl
  · refine List.map_congr_left fun c hc => hspan c ?_
    rintro rfl
    exact (List.nodup_cons.mp (List.nodup_append.mp hnodup).2.1).1 hc

theorem rising_blocks (hrising : (done ++ cur :: ahead).Pairwise fun r q => r.offset < q.offset) :
    g.Rising (g.blocksFrom 0) := by
  have hmap := h.map_chain ▸ hrising
  rw [List.pairwise_map] at hmap
  exact hmap

end

/-- The first block ahead becomes the current one. -/
theorem advance {next : Span} (h : Shows g current done cur (next :: ahead))
    (hrising : (done ++ cur :: next :: ahead).Pairwise fun r q => r.offset < q.offset)
    {b : BlockId} (hb : b < g.blockCount) (hoffset : (g.block b).offset = next.offset) :
    Shows g b (done ++ [cur]) next ahead := by
  have hrising' := h.rising_blocks hrising
  obtain ⟨before, after, hchain, rfl, rfl, hafter⟩ := h.chain
  obtain ⟨c, after, rfl, rfl, rfl⟩ := List.map_eq_cons_iff.mp hafter
  have hmem : b ∈ g.blocksFrom 0 := (h.grown.threaded.chained.mem_iff b).mpr hb
  obtain rfl : b = c := hrising'.eq_of_offset_eq hmem (by simp [hchain]) hoffset
  refine ⟨h.grown, h.ended, before ++ [current], after, ?_, ?_, rfl, rfl⟩
  · rw [hchain, List.append_assoc]
    rfl
  · rw [List.map_append, List.map_singleton]

section

variable {r : Span} (h : Shows g current done cur ahead)
  (hrising : (done ++ cur :: ahead).Pairwise fun r q => r.offset < q.offset)
include h hrising

/-- A look-up lands in the last block that does not start behind the offset. -/
theorem landing_spec (hnonneg : 0 ≤ offset) :
    ∃ bs cs, g.blocksFrom 0 = bs ++ g.landing offset 0 (g.blocksFrom 0).tail :: cs ∧
      (g.block (g.landing offset 0 (g.blocksFrom 0).tail)).offset ≤ offset ∧
      ∀ c ∈ cs, offset < (g.block c).offset := by
  have hthreaded := h.grown.threaded
  have hrising' : g.Rising (0 :: (g.blocksFrom 0).tail) := by
    rw [hthreaded.cons_tail]
    exact h.rising_blocks hrising
  have hspec := Graph.landing_spec hrising' (hthreaded.zero_offset ▸ hnonneg)
  rwa [hthreaded.cons_tail] at hspec

/-- There is a last span that does not start behind an offset. -/
theorem exists_last_le (hnonneg : 0 ≤ offset) :
    ∃ before r after, done ++ cur :: ahead = before ++ r :: after ∧ r.offset ≤ offset ∧
      ∀ q ∈ after, offset < q.offset := by
  obtain ⟨bs, cs, hsplit, hle, hcs⟩ := h.landing_spec hrising hnonneg
  refine ⟨bs.map g.span, g.span _, cs.map g.span, ?_, hle, ?_⟩
  · rw [← h.map_chain, ← List.map_cons, ← List.map_append, ← hsplit]
  · intro q hq
    obtain ⟨c, hc, rfl⟩ := List.mem_map.mp hq
    exact hcs c hc

/-- A look-up lands in the last span that does not start behind the offset. -/
theorem landing {before after : List Span} (hspans : done ++ cur :: ahead = before ++ r :: after)
    (hnonneg : 0 ≤ offset) (hr : r.offset ≤ offset) (hafter : ∀ q ∈ after, offset < q.offset) :
    ∃ bs d cs, g.blocksFrom 0 = bs ++ d :: cs ∧ bs.map g.span = before ∧ g.span d = r ∧
      cs.map g.span = after ∧ g.landing offset 0 (g.blocksFrom 0).tail = d := by
  obtain ⟨bs, cs, hsplit, hle, hcs⟩ := h.landing_spec hrising hnonneg
  have hmap := h.map_chain
  rw [hsplit, hspans, List.map_append, List.map_cons] at hmap
  obtain ⟨hbefore, hd, hafter'⟩ := eq_of_last_split
    (P := fun q : Span => q.offset ≤ offset) hmap hle hr (by
      intro q hq
      obtain ⟨c, hc, rfl⟩ := List.mem_map.mp hq
      exact Int.not_le.mpr (hcs c hc)) (fun q hq => Int.not_le.mpr (hafter q hq))
  exact ⟨bs, _, cs, hsplit, hbefore, hd, hafter', rfl⟩

theorem blockAt_existing (hr : r ∈ done ++ cur :: ahead) (hnonneg : 0 ≤ r.offset) :
    ∃ b, Graph.blockAt 0 r.offset g = .ok b g := by
  obtain ⟨before, after, hspans⟩ := List.append_of_mem hr
  have hafter : ∀ q ∈ after, r.offset < q.offset := by
    rw [hspans] at hrising
    exact (List.pairwise_cons.mp (List.pairwise_append.mp hrising).2.1).1
  obtain ⟨bs, d, cs, -, -, rfl, -, hd⟩ := h.landing hrising hspans hnonneg (Int.le_refl _) hafter
  refine ⟨d, ?_⟩
  rw [Graph.blockAt_apply, Graph.locate_of_offset_eq hd rfl]

theorem blockAt_empty {before after : List Span}
    (hspans : done ++ cur :: ahead = before ++ r :: after) (hnonneg : 0 ≤ offset)
    (hr : r.offset < offset) (hafter : ∀ q ∈ after, offset < q.offset) (hempty : r.entries = []) :
    Graph.blockAt 0 offset g = .error .emptyBlock g := by
  obtain ⟨bs, d, cs, -, -, rfl, -, hd⟩ :=
    h.landing hrising hspans hnonneg (Int.le_of_lt hr) hafter
  have hfirst := (Graph.entries_eq_nil_iff h.grown.threaded.linked).mp hempty
  rw [Graph.blockAt_apply, Graph.locate_of_first_eq_none hd (Int.ne_of_lt hr) hfirst]

end

/-- A look-up behind the statements of the current block puts an empty block in. -/
theorem blockAt_behind (h : Shows g current done cur ahead)
    (hrising : (done ++ cur :: ahead).Pairwise fun r q => r.offset < q.offset)
    (hnonneg : 0 ≤ offset) (hcur : cur.offset < offset) (hahead : ∀ q ∈ ahead, offset < q.offset)
    (hne : cur.entries ≠ []) (hplaced : ∀ y ∈ cur.entries, y.1 < offset) :
    Graph.blockAt 0 offset g = .ok g.blockCount (g.insertBehind current offset) ∧
      Shows (g.insertBehind current offset) current done cur (⟨offset, []⟩ :: ahead) := by
  have hthreaded := h.grown.threaded
  obtain ⟨bs, d, cs, hchain, hbs, hspan, hcs, hd⟩ :=
    h.landing hrising rfl hnonneg (Int.le_of_lt hcur) hahead
  -- The block in which the look-up lands is the current one.
  obtain rfl : d = current := by
    obtain ⟨before, after, hchain', hbefore, -, hafter⟩ := h.chain
    have hlength : bs.length = before.length := by
      rw [← List.length_map (f := g.span), hbs, ← hbefore, List.length_map]
    rw [hchain] at hchain'
    exact (List.cons.inj (List.append_inj hchain' hlength).2).1
  have hfirst : (g.block d).first ≠ none := by
    intro hnone
    rw [← Graph.entries_eq_nil_iff hthreaded.linked] at hnone
    rw [← hspan] at hne
    exact hne hnone
  have hlt : ∀ s ∈ g.stmtsOf d, (g.stmt s).offset < offset := by
    intro s hs
    refine hplaced ((g.stmt s).offset, (g.stmt s).tree) ?_
    rw [← hspan]
    exact List.mem_map.mpr ⟨s, hs, rfl⟩
  have hne' : (g.block d).offset ≠ offset := by
    rw [← hspan] at hcur
    exact Int.ne_of_lt hcur
  have hlook : Graph.blockAt 0 offset g = .ok g.blockCount (g.insertBehind d offset) := by
    rw [Graph.blockAt_apply, Graph.locate_of_forall_lt hd hne' hfirst hlt]
  have hmem : ∀ c ∈ bs ++ d :: cs, (g.insertBehind d offset).span c = g.span c := by
    intro c hc
    have hclt : c ≠ g.blockCount :=
      Nat.ne_of_lt ((hthreaded.chained.mem_iff c).mp (hchain ▸ hc))
    rw [Graph.span, Graph.span, Graph.insertBehind_offset, Graph.entries_insertBehind,
      if_neg hclt, if_neg hclt]
  have hinsert := hthreaded.chained.insert hchain (g.insertBehind_blockCount d offset)
    fun c => g.insertBehind_next d c offset
  refine ⟨hlook, h.grown.lookup hlook, h.ended.insertBehind d offset, bs,
    g.blockCount :: cs, hinsert.2, ?_, ?_, ?_⟩
  · rw [← hbs]
    exact List.map_congr_left fun c hc => hmem c (by simp [hc])
  · rw [← hspan]
    exact hmem d (by simp)
  · rw [List.map_cons, ← hcs, List.map_congr_left fun c hc => hmem c (by simp [hc]), Graph.span,
      Graph.insertBehind_offset, Graph.entries_insertBehind, if_pos rfl, if_pos rfl]

/-- A look-up of the last statement of a block that was left cuts it off.  A jump takes its
place, at the offset of the statement before it. -/
theorem blockAt_cut {before after : List Span} {r : Span} {init : List (Int × Tree)} {t : Tree}
    (h : Shows g current (before ++ r :: after) cur ahead)
    (hrising : ((before ++ r :: after) ++ cur :: ahead).Pairwise fun r q => r.offset < q.offset)
    (hnonneg : 0 ≤ offset) (hr : r.offset < offset)
    (hafter : ∀ q ∈ after ++ cur :: ahead, offset < q.offset)
    (hentries : r.entries = init ++ [(offset, t)]) (hinit : ∀ y ∈ init, y.1 < offset) :
    ∃ d g', Graph.blockAt 0 offset g = .ok g.blockCount g' ∧
      Shows g' current
        (before ++ ⟨r.offset,
          init ++ [((init.getLast?.map Prod.fst).getD r.offset, g.splitJump d)]⟩ ::
          ⟨offset, [(offset, t)]⟩ :: after)
        cur ahead := by
  have hthreaded := h.grown.threaded
  obtain ⟨bs, d, cs, hchain, hbs, rfl, hcs, hd⟩ :=
    h.landing hrising (List.append_assoc _ _ _) hnonneg (Int.le_of_lt hr) hafter
  -- The blocks behind the one to be cut, up to the current one.
  obtain ⟨mid, post, rfl, hmid, hcur, hpost⟩ : ∃ mid post, cs = mid ++ current :: post ∧
      mid.map g.span = after ∧ g.span current = cur ∧ post.map g.span = ahead := by
    obtain ⟨left, post, hchain', hleft, hcur, hpost⟩ := h.chain
    obtain ⟨pre, right, rfl, hpre, hright⟩ := List.map_eq_append_iff.mp hleft
    obtain ⟨d', mid, rfl, -, hmid⟩ := List.map_eq_cons_iff.mp hright
    have hlength : bs.length = pre.length := by
      rw [← List.length_map (f := g.span), hbs, ← hpre, List.length_map]
    rw [hchain, List.append_assoc] at hchain'
    exact ⟨mid, post, (List.cons.inj (List.append_inj hchain' hlength).2).2, hmid, hcur, hpost⟩
  obtain ⟨front, s, hstmts, hfront, hs⟩ : ∃ front s, g.stmtsOf d = front ++ [s] ∧
      (∀ q ∈ front, (g.stmt q).offset < offset) ∧ (g.stmt s).offset = offset := by
    obtain ⟨front, rear, hstmts, hfront, hrear⟩ := List.map_eq_append_iff.mp hentries
    obtain ⟨s, rear, rfl, hs, hrear⟩ := List.map_eq_cons_iff.mp hrear
    obtain rfl := List.map_eq_nil_iff.mp hrear
    refine ⟨front, s, hstmts, ?_, (Prod.mk.inj hs).1⟩
    intro q hq
    exact hinit ((g.stmt q).offset, (g.stmt q).tree) (hfront ▸ List.mem_map.mpr ⟨q, hq, rfl⟩)
  have hlocate := Graph.locate_of_stmt_offset_eq hd (Int.ne_of_lt hr) hstmts hfront hs
  have hlook : Graph.blockAt 0 offset g = .ok g.blockCount (g.split d s offset) := by
    rw [Graph.blockAt_apply, hlocate]
  have hlast : (g.block d).last = some s := by
    rw [h.ended d, hstmts, List.getLast?_concat]
  obtain ⟨hfrontSpan, hrearSpan, hothers⟩ :=
    Graph.entries_split hthreaded h.ended hlocate hr hlast hentries
  have hoffset : ∀ c, ((g.split d s offset).block c).offset =
      if c = g.blockCount then offset else (g.block c).offset := by
    intro c
    rw [Graph.split_offset, Graph.insertBehind_offset]
  have hnodup : (bs ++ d :: (mid ++ current :: post)).Nodup := hchain ▸ hthreaded.chained.nodup
  have hlt : ∀ c ∈ bs ++ d :: (mid ++ current :: post), c ≠ g.blockCount := fun c hc =>
    Nat.ne_of_lt ((hthreaded.chained.mem_iff c).mp (hchain ▸ hc))
  have hmem : ∀ c ∈ bs ++ (mid ++ current :: post), (g.split d s offset).span c = g.span c := by
    intro c hc
    have hcd : c ≠ d := by
      rintro rfl
      exact (List.nodup_cons.mp (List.nodup_middle.mp hnodup)).1 hc
    have hcnew := hlt c (List.perm_middle.mem_iff.mpr (List.mem_cons_of_mem d hc))
    rw [Graph.span, Graph.span, hoffset, if_neg hcnew, hothers c hcd hcnew]
  have hinsert := hthreaded.chained.insert hchain (g.split_blockCount d s offset) fun c => by
    rw [Graph.split_next, Graph.insertBehind_next]
  have hplace : g.splitOffset d = (init.getLast?.map Prod.fst).getD (g.span d).offset :=
    Graph.splitOffset_eq hthreaded h.ended hlocate hr hlast hentries
  refine ⟨d, g.split d s offset, hlook, h.grown.lookup hlook,
    h.ended.split hthreaded hlocate hr hlast, bs ++ d :: g.blockCount :: mid, post, ?_, ?_, ?_, ?_⟩
  · rw [hinsert.2]
    simp
  · rw [List.map_append, List.map_cons, List.map_cons, ← hbs, ← hmid,
      List.map_congr_left fun c hc => hmem c (by simp [hc]),
      List.map_congr_left (l := mid) fun c hc => hmem c (by simp [hc]), Graph.span, Graph.span,
      hoffset, hoffset, if_neg (hlt d (by simp)), if_pos rfl, hfrontSpan, hrearSpan, hplace]
    rfl
  · rw [← hcur]
    exact hmem current (by simp)
  · rw [← hpost]
    exact List.map_congr_left fun c hc => hmem c (by simp [hc])

end Shows
end LinearScan
