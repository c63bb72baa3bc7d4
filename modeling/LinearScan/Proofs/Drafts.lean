import LinearScan.Proofs.BlockList
import LinearScan.Proofs.EntrySets
import LinearScan.Proofs.Flattening
import LinearScan.Proofs.ThreeAddress
import Mathlib.Algebra.GroupWithZero.Nat

/-!
# Drafts of flow graphs

A draft shows a block without the numbers of trees, edges and blocks: its offset and its
statements, where an edge is known by the offset of the block to which it leads.  The drafts of
all blocks say how many trees there are and which blocks are the predecessors of which.

While a program is read, a view says what can be seen of the blocks and of the stack.  What an
instruction does to the view does not depend on anything else, so that the views of a program can
be computed one after the other.
-/

namespace LinearScan

/-! ## Drafts -/

/-- What an operand names: a literal, an operator or the offset of a block. -/
inductive Mention where
  | literal (l : Literal)
  | operator (op : Operator)
  | block (offset : Int)
deriving DecidableEq, Repr

/-- The offset of the block that an operand names. -/
def Mention.block? : Mention → Option Int
  | .block offset => some offset
  | _ => none

/-- A statement without numbers. -/
structure Outline where
  offset : Int
  kind : TreeKind
  operands : List Mention
  /-- How many trees the statement has. -/
  size : Nat
deriving DecidableEq, Repr

/-- A block without numbers. -/
structure Draft where
  offset : Int
  lines : List Outline
deriving DecidableEq, Repr

/-- The draft with one more statement at its end. -/
def Draft.push (d : Draft) (line : Outline) : Draft :=
  ⟨d.offset, d.lines ++ [line]⟩

/-- The offsets to which the edges out of a block lead. -/
def Draft.targets (d : Draft) : List Int :=
  (d.lines.getLast?.map Outline.operands).getD [] |>.filterMap Mention.block?

/-- The block ends with a statement whose operands are edges. -/
def Draft.Closed (d : Draft) : Prop :=
  ∃ lines line, d.lines = lines ++ [line] ∧ ∀ x ∈ line.operands, ∃ offset, x = .block offset

/-- The offsets of the blocks from which edges lead to `offset`. -/
def sourcesAt (ds : List Draft) (offset : Int) : List Int :=
  ds.flatMap fun d => (d.targets.filter (· = offset)).map fun _ => d.offset

namespace Graph

variable {g g' : Graph} {b c current : BlockId} {offset : Int} {t : Tree}

/-- What an operand names in a graph. -/
def mention (g : Graph) : Operand → Mention
  | .literal l => .literal l
  | .operator op => .operator op
  | .edge _ target => .block (g.block target).offset

/-- A statement of a graph without numbers. -/
def outline (g : Graph) (x : Int × Tree) : Outline :=
  ⟨x.1, x.2.kind, x.2.operands.map g.mention, x.2.postorder.length⟩

/-- The draft of a block. -/
def draft (g : Graph) (b : BlockId) : Draft :=
  ⟨(g.block b).offset, (g.entries b).map g.outline⟩

theorem length_treesOf (g : Graph) (b : BlockId) :
    (g.treesOf b).length = ((g.draft b).lines.map Outline.size).sum := by
  rw [treesOf_eq_flatMap_entries, List.length_flatMap, draft, List.map_map]
  rfl

theorem length_treesFrom (g : Graph) (b : BlockId) :
    (g.treesFrom b).length =
      (((g.blocksFrom b).map g.draft).map fun d => (d.lines.map Outline.size).sum).sum := by
  rw [treesFrom, List.length_flatMap, List.map_map]
  congr 1
  exact List.map_congr_left fun c _ => g.length_treesOf c

theorem mention_block? (g : Graph) (o : Operand) :
    (g.mention o).block? = o.edge?.map fun x => (g.block x.2).offset := by
  cases o <;> rfl

/-- The edges that leave a block, as its draft shows them. -/
theorem targets_draft (he : g.Ended) (b : BlockId) :
    (g.draft b).targets = (g.exits b).map fun x => (g.block x.2).offset := by
  rw [Draft.targets, draft, entries, exits, terminator, he b, List.map_map, List.getLast?_map]
  cases (g.stmtsOf b).getLast? with
  | none => rfl
  | some s =>
      change ((g.stmt s).tree.operands.map g.mention).filterMap Mention.block? = _
      change _ = ((g.stmt s).tree.operands.filterMap Operand.edge?).map _
      rw [List.filterMap_map, List.map_filterMap]
      congr 1
      funext o
      exact g.mention_block? o

/-- All operands of the last statement of a closed block are edges. -/
theorem closed_span (h : (g.draft b).Closed) : (g.span b).Closed := by
  obtain ⟨lines, line, hlines, hblocks⟩ := h
  obtain ⟨before, rest, hentries, -, hrest⟩ := List.map_eq_append_iff.mp hlines
  obtain ⟨y, rest, rfl, rfl, hnil⟩ := List.map_eq_cons_iff.mp hrest
  obtain rfl := List.map_eq_nil_iff.mp hnil
  refine ⟨before, y, hentries, ?_⟩
  intro o ho
  obtain ⟨offset, hoffset⟩ := hblocks (g.mention o) (List.mem_map_of_mem ho)
  cases o with
  | edge e target => exact ⟨e, target, rfl⟩
  | literal l => cases hoffset
  | operator op => cases hoffset

/-- The predecessors of a block, by their offsets. -/
theorem map_offset_sourcesOf (hplaced : g.Placed) (he : g.Ended) {bs : List BlockId}
    (hlt : ∀ b ∈ bs, ∀ x ∈ g.exits b, x.2 < g.blockCount) (hc : c < g.blockCount) :
    (g.sourcesOf bs c).map (fun b => (g.block b).offset) =
      sourcesAt (bs.map g.draft) (g.block c).offset := by
  rw [sourcesOf, sourcesAt, List.map_flatMap, List.flatMap_map]
  refine List.flatMap_congr fun b hb => ?_
  have hsame : (g.exits b).filter (fun x => x.2 = c) =
      (g.exits b).filter fun x => (g.block x.2).offset = (g.block c).offset := by
    refine List.filter_congr fun x hx => ?_
    rw [decide_eq_decide]
    constructor
    · intro h
      rw [h]
    · exact hplaced.offset_inj (hlt b hb x hx) hc
  rw [List.map_map, targets_draft he, List.filter_map, List.map_map, hsame]
  rfl

end Graph

/-! ## The drafts of the chain of blocks -/

theorem OffsetsKept.lookup {g g' : Graph} {b : BlockId} {offset : Int}
    (h : Graph.blockAt 0 offset g = .ok b g') : OffsetsKept g g' := by
  intro c hc
  rcases Graph.blockAt_offset_cases h with ⟨-, rfl⟩ | ⟨-, hcount, hblock⟩
  · exact ⟨hc, rfl⟩
  · rw [hcount, hblock, if_neg (Nat.ne_of_lt hc)]
    exact ⟨Nat.lt_succ_of_lt hc, rfl⟩

/-- All edges of the statements lead to one of `count` blocks. -/
def Span.Within (count : Nat) (r : Span) : Prop :=
  ∀ x ∈ r.entries, ∀ e ∈ x.2.edges, e.2 < count

/-- The draft of a block that looks like `r`. -/
def Span.draft (g : Graph) (r : Span) : Draft :=
  ⟨r.offset, r.entries.map g.outline⟩

section Kept

variable {g g' : Graph} {r : Span} {rs : List Span} {t : Tree}

/-- Operands name the same in graphs whose blocks have the same offsets. -/
theorem OffsetsKept.map_mention (hkept : OffsetsKept g g')
    (ht : ∀ e ∈ t.edges, e.2 < g.blockCount) :
    t.operands.map g'.mention = t.operands.map g.mention := by
  refine List.map_congr_left fun o ho => ?_
  cases o with
  | literal l => rfl
  | operator op => rfl
  | edge e target =>
      have hlt := ht (e, target) (List.mem_filterMap.mpr ⟨_, ho, rfl⟩)
      rw [Graph.mention, Graph.mention, (hkept target hlt).2]

theorem Span.Within.draft_eq (hr : r.Within g.blockCount) (hkept : OffsetsKept g g') :
    r.draft g' = r.draft g := by
  refine congrArg (Draft.mk r.offset) (List.map_congr_left fun x hx => ?_)
  rw [Graph.outline, Graph.outline, hkept.map_mention (hr x hx)]

theorem Span.map_draft_eq (hrs : ∀ r ∈ rs, r.Within g.blockCount) (hkept : OffsetsKept g g') :
    rs.map (Span.draft g') = rs.map (Span.draft g) :=
  List.map_congr_left fun r hr => (hrs r hr).draft_eq hkept

theorem Span.Within.mono (hr : r.Within g.blockCount) (hkept : OffsetsKept g g') :
    r.Within g'.blockCount :=
  fun x hx e he => (hkept e.2 (hr x hx e he)).1

end Kept

/-- The chain of blocks has the drafts `done`, `cur` and `ahead`, where `cur` is the draft of the
block `current`. -/
structure Graph.Draws
    (g : Graph) (current : BlockId) (done : List Draft) (cur : Draft) (ahead : List Draft) :
    Prop where
  placed : g.Placed
  spans : ∃ done' cur' ahead', Shows g current done' cur' ahead' ∧
    (∀ r ∈ done' ++ cur' :: ahead', r.Within g.blockCount) ∧
    done'.map (Span.draft g) = done ∧ cur'.draft g = cur ∧ ahead'.map (Span.draft g) = ahead

namespace Graph.Draws

variable {g g' : Graph} {current : BlockId} {done ahead : List Draft} {cur : Draft} {offset : Int}

theorem shows_rising {done' ahead' : List Span} {cur' : Span} (hplaced : g.Placed)
    (h : Shows g current done' cur' ahead') :
    (done' ++ cur' :: ahead').Pairwise fun r q => r.offset < q.offset := by
  rw [← h.map_chain, List.pairwise_map]
  exact hplaced.rising

section

variable (h : g.Draws current done cur ahead)
include h

theorem ended : g.Ended := by
  obtain ⟨_, _, _, hshows, -⟩ := h.spans
  exact hshows.ended

theorem map_draft : (g.blocksFrom 0).map g.draft = done ++ cur :: ahead := by
  obtain ⟨done', cur', ahead', hshows, -, rfl, rfl, rfl⟩ := h.spans
  rw [← List.map_cons, ← List.map_append, ← hshows.map_chain, List.map_map]
  rfl

/-- The changes that touch neither blocks nor statements. -/
theorem congr (hsame : g.SameBlocks g') (hg' : g'.Grown) : g'.Draws current done cur ahead := by
  obtain ⟨done', cur', ahead', hshows, hwithin, rfl, rfl, rfl⟩ := h.spans
  have hkept := OffsetsKept.of_sameBlocks hsame
  refine ⟨h.placed.congr hsame hg', done', cur', ahead', hshows.congr hsame hg',
    fun r hr => (hwithin r hr).mono hkept, ?_, ?_, ?_⟩
  · exact Span.map_draft_eq (fun r hr => hwithin r (by simp [hr])) hkept
  · exact (hwithin cur' (by simp)).draft_eq hkept
  · exact Span.map_draft_eq (fun r hr => hwithin r (by simp [hr])) hkept

/-- A statement is put at the end of the current block. -/
theorem append (hoffset : 0 ≤ offset) {t : Tree} (ht : ∀ e ∈ t.edges, e.2 < g.blockCount) :
    (g.append current offset t).Draws current done (cur.push (g.outline (offset, t))) ahead := by
  obtain ⟨done', cur', ahead', hshows, hwithin, rfl, rfl, rfl⟩ := h.spans
  have hkept := OffsetsKept.append g current offset t
  have hpush : (cur'.push offset t).Within g.blockCount := by
    intro x hx
    rcases List.mem_append.mp hx with hx | hx
    · exact hwithin cur' (by simp) x hx
    · obtain rfl := List.mem_singleton.mp hx
      exact ht
  refine ⟨h.placed.append current hoffset t, done', cur'.push offset t, ahead',
    hshows.append offset t, ?_, ?_, ?_, ?_⟩
  · intro r hr
    have hcases : r ∈ done' ++ cur' :: ahead' ∨ r = cur'.push offset t := by
      simp only [List.mem_append, List.mem_cons] at hr ⊢
      tauto
    rcases hcases with hr | rfl
    · exact (hwithin r hr).mono hkept
    · exact hpush.mono hkept
  · exact Span.map_draft_eq (fun r hr => hwithin r (by simp [hr])) hkept
  · rw [hpush.draft_eq hkept]
    simp only [Span.draft, Span.push, Draft.push, List.map_append, List.map_singleton]
  · exact Span.map_draft_eq (fun r hr => hwithin r (by simp [hr])) hkept

end

/-- The first block ahead becomes the current one. -/
theorem advance {next : Draft} (h : g.Draws current done cur (next :: ahead)) {b : BlockId}
    (hb : b < g.blockCount) (hoffset : (g.block b).offset = next.offset) :
    g.Draws b (done ++ [cur]) next ahead := by
  obtain ⟨done', cur', ahead', hshows, hwithin, rfl, rfl, hahead⟩ := h.spans
  obtain ⟨next', ahead', rfl, rfl, rfl⟩ := List.map_eq_cons_iff.mp hahead
  refine ⟨h.placed, done' ++ [cur'], next', ahead',
    hshows.advance (shows_rising h.placed hshows) hb hoffset, ?_, ?_, rfl, rfl⟩
  · rw [List.append_assoc]
    exact hwithin
  · rw [List.map_append, List.map_singleton]

/-- A look-up of a block that is there changes nothing. -/
theorem blockAt_existing (h : g.Draws current done cur ahead) {d : Draft}
    (hd : d ∈ done ++ cur :: ahead) (hnonneg : 0 ≤ d.offset) :
    ∃ b, Graph.blockAt 0 d.offset g = .ok b g := by
  obtain ⟨done', cur', ahead', hshows, -, rfl, rfl, rfl⟩ := h.spans
  rw [← List.map_cons, ← List.map_append] at hd
  obtain ⟨r, hr, rfl⟩ := List.mem_map.mp hd
  exact hshows.blockAt_existing (shows_rising h.placed hshows) hr hnonneg

/-- A look-up behind the statements of the current block puts an empty block in. -/
theorem blockAt_behind (h : g.Draws current done cur ahead)
    (hnonneg : 0 ≤ offset) (hcur : cur.offset < offset) (hahead : ∀ d ∈ ahead, offset < d.offset)
    (hne : cur.lines ≠ []) (hplaced : ∀ x ∈ cur.lines, x.offset < offset) :
    ∃ b g', Graph.blockAt 0 offset g = .ok b g' ∧
      g'.Draws current done cur (⟨offset, []⟩ :: ahead) := by
  obtain ⟨done', cur', ahead', hshows, hwithin, rfl, rfl, rfl⟩ := h.spans
  have hne' : cur'.entries ≠ [] := fun hnil => hne (List.map_eq_nil_iff.mpr hnil)
  obtain ⟨hlook, hshows'⟩ := hshows.blockAt_behind (shows_rising h.placed hshows) hnonneg hcur
    (fun q hq => hahead _ (List.mem_map_of_mem hq)) hne'
    (fun y hy => hplaced _ (List.mem_map_of_mem (f := g.outline) hy))
  have hkept := OffsetsKept.lookup hlook
  refine ⟨_, _, hlook, h.placed.lookup hlook, _, _, _, hshows', ?_, ?_, ?_, ?_⟩
  · intro r hr
    have hcases : r ∈ done' ++ cur' :: ahead' ∨ r = ⟨offset, []⟩ := by
      simp only [List.mem_append, List.mem_cons] at hr ⊢
      tauto
    rcases hcases with hr | rfl
    · exact (hwithin r hr).mono hkept
    · exact fun x hx => absurd hx (by simp)
  · exact Span.map_draft_eq (fun r hr => hwithin r (by simp [hr])) hkept
  · exact (hwithin cur' (by simp)).draft_eq hkept
  · rw [List.map_cons, Span.map_draft_eq (fun r hr => hwithin r (by simp [hr])) hkept]
    rfl

/-- A look-up of the last statement of a block that was left cuts it off, and a jump takes its
place. -/
theorem blockAt_cut {before after : List Draft} {d : Draft} {init : List Outline} {line : Outline}
    (h : g.Draws current (before ++ d :: after) cur ahead) (hline : line.offset = offset)
    (hnonneg : 0 ≤ offset) (hd : d.offset < offset)
    (hafter : ∀ e ∈ after ++ cur :: ahead, offset < e.offset)
    (hlines : d.lines = init ++ [line]) (hinit : ∀ x ∈ init, x.offset < offset) :
    ∃ b g', Graph.blockAt 0 offset g = .ok b g' ∧
      g'.Draws current
        (before ++ ⟨d.offset, init ++ [⟨(init.getLast?.map Outline.offset).getD d.offset, .jmp,
          [.block offset], 1⟩]⟩ :: ⟨offset, [line]⟩ :: after) cur ahead := by
  obtain ⟨done', cur', ahead', hshows, hwithin, hdone, rfl, rfl⟩ := h.spans
  obtain ⟨before, rest, rfl, rfl, hrest⟩ := List.map_eq_append_iff.mp hdone
  obtain ⟨r, after, rfl, rfl, rfl⟩ := List.map_eq_cons_iff.mp hrest
  obtain ⟨front, rear, hentries, rfl, hrear⟩ := List.map_eq_append_iff.mp hlines
  obtain ⟨⟨place, t⟩, rear, rfl, rfl, hnil⟩ := List.map_eq_cons_iff.mp hrear
  obtain rfl := List.map_eq_nil_iff.mp hnil
  obtain rfl : place = offset := hline
  have hr : r.Within g.blockCount := hwithin r (by simp)
  obtain ⟨b, g', hlook, hshows'⟩ := hshows.blockAt_cut (shows_rising h.placed hshows) hnonneg hd
    (fun q hq => hafter (q.draft g) (by
      rw [← List.map_cons, ← List.map_append]
      exact List.mem_map_of_mem hq))
    hentries (fun y hy => hinit _ (List.mem_map_of_mem hy))
  have hkept := OffsetsKept.lookup hlook
  obtain ⟨hlt, hoffset⟩ := h.placed.grown.blockAt_offset hlook
  have hrear : Span.Within g.blockCount ⟨place, [(place, t)]⟩ := by
    intro x hx
    exact hr x (by rw [hentries]; exact List.mem_append_right _ hx)
  have hfront : Span.Within g.blockCount ⟨r.offset, front⟩ := by
    intro x hx
    exact hr x (by rw [hentries]; exact List.mem_append_left _ hx)
  refine ⟨_, _, hlook, h.placed.lookup hlook, _, _, _, hshows', ?_, ?_, ?_, ?_⟩
  · intro q hq
    have hcases : q ∈ (before ++ r :: after) ++ cur' :: ahead' ∨ q = ⟨place, [(place, t)]⟩ ∨
        q.entries = front ++ [((front.getLast?.map Prod.fst).getD r.offset, g.splitJump b)] := by
      simp only [List.mem_append, List.mem_cons] at hq ⊢
      rcases hq with (hq | rfl | rfl | hq) | hq <;> simp_all
    rcases hcases with hq | rfl | hq
    · exact (hwithin q hq).mono hkept
    · exact hrear.mono hkept
    · intro x hx
      rw [hq] at hx
      rcases List.mem_append.mp hx with hx | hx
      · exact hfront.mono hkept x hx
      · obtain rfl := List.mem_singleton.mp hx
        intro e he
        obtain rfl : e = (g.edgeCount, g.blockCount) := List.mem_singleton.mp he
        exact hlt
  · rw [List.map_append, List.map_cons, List.map_cons,
      Span.map_draft_eq (fun q hq => hwithin q (by simp [hq])) hkept,
      Span.map_draft_eq (fun q (hq : q ∈ after) => hwithin q (by simp [hq])) hkept]
    have hjump : g'.outline ((front.getLast?.map Prod.fst).getD r.offset, g.splitJump b) =
        ⟨((front.map g.outline).getLast?.map Outline.offset).getD r.offset, .jmp,
          [.block place], 1⟩ := by
      have hmention : (g.splitJump b).operands.map g'.mention = [.block place] :=
        congrArg (fun x => [Mention.block x]) hoffset
      rw [Graph.outline, hmention, List.getLast?_map, Option.map_map]
      rfl
    have hfront' : (front.map g'.outline) = front.map g.outline :=
      congrArg Draft.lines (hfront.draft_eq hkept)
    have hrear' := hrear.draft_eq hkept
    simp only [Span.draft, List.map_append, List.map_singleton, hfront', hjump] at hrear' ⊢
    rw [hrear']
  · exact (hwithin cur' (by simp)).draft_eq hkept
  · exact Span.map_draft_eq (fun q hq => hwithin q (by simp [hq])) hkept

end Graph.Draws

/-! ## Views -/

/-- What can be seen while a program is read: the offset at which the current statement starts,
how many trees each value on the stack has, the topmost first, and the drafts of the blocks. -/
structure View where
  start : Nat
  sizes : List Nat := []
  done : List Draft := []
  cur : Draft
  ahead : List Draft := []

namespace View

/-- The drafts of all blocks in order. -/
def drafts (v : View) : List Draft :=
  v.done ++ v.cur :: v.ahead

/-- The `n` topmost values are folded into one. -/
def fold (v : View) (n : Nat) : View :=
  { v with sizes := ((v.sizes.take n).sum + 1) :: v.sizes.drop n }

/-- The values on the stack become a statement at the end of the current block, and the next one
starts behind `i`. -/
def finish (v : View) (i : Nat) (kind : TreeKind) (operands : List Mention) : View :=
  { v with
    start := i + 1
    sizes := []
    cur := v.cur.push ⟨v.start, kind, operands, v.sizes.sum + 1⟩ }

end View

/-- The view `v` is what can be seen of the importer. -/
structure Importer.Draws (s : Importer) (v : View) : Prop where
  graph : s.graph.Draws s.block v.done v.cur v.ahead
  first_eq : s.first = 0
  start_eq : s.start = v.start
  sizes_eq : s.stack.map (fun t => t.postorder.length) = v.sizes

namespace Importer.Draws

variable {s s' : Importer} {v : View} {n : Nat} {t : Tree}

theorem start : Importer.Draws .fresh
    { start := 0, cur := ⟨0, []⟩ } := by
  have hshows := (Underway.start []).shows
  refine ⟨⟨Graph.Placed.fresh, _, _, _, hshows, ?_, rfl, rfl, rfl⟩, rfl, rfl, rfl⟩
  intro r hr x hx
  obtain rfl := List.mem_singleton.mp hr
  cases hx

theorem newEdge (h : s.Draws v) (b : BlockId) : (s.newEdge b).2.Draws v :=
  { h with
    graph := h.graph.congr (s.graph.sameBlocks_newEdge b) (h.graph.placed.grown.edge b) }

/-- The topmost values are folded into a new one. -/
theorem fold (h : s.Draws v) (hn : n ≤ v.sizes.length) (kind : TreeKind)
    (operands : List Operand) :
    ∃ t s', s.fold n kind operands = .ok s' ∧ s'.stack = t :: s.stack.drop n ∧
      t.kind = kind ∧ t.operands = operands ∧ s.graph.SameBlocks s'.graph ∧
      s'.Draws (v.fold n) := by
  have hlength : n ≤ s.stack.length := by
    rw [← h.sizes_eq, List.length_map] at hn
    exact hn
  have hsame := s.graph.sameBlocks_newTree kind operands s.block (s.stack.take n).reverse
  have hfold : s.fold n kind operands = .ok { s with
      graph := (s.graph.newTree kind operands s.block (s.stack.take n).reverse).2
      stack := (s.graph.newTree kind operands s.block (s.stack.take n).reverse).1 ::
        s.stack.drop n } := by
    rw [Importer.fold, if_neg (Nat.not_lt.mpr hlength)]
  refine ⟨_, _, hfold, rfl, rfl, rfl, hsame, ?_, h.first_eq, h.start_eq, ?_⟩
  · exact h.graph.congr hsame (h.graph.placed.grown.tree kind operands s.block _)
  · have hsize : ((s.graph.newTree kind operands s.block
        (s.stack.take n).reverse).1.postorder).length = (v.sizes.take n).sum + 1 := by
      rw [Tree.postorder_eq, List.length_append, List.length_flatMap, ← h.sizes_eq,
        ← List.map_take]
      change ((s.stack.take n).reverse.map _).sum + 1 = _
      rw [List.map_reverse, List.sum_reverse]
    rw [List.map_cons, hsize, List.map_drop, h.sizes_eq]
    rfl

theorem noteStore (h : s.Draws v) (i : Nat) : (s.noteStore i).Draws v := by
  rw [Importer.noteStore]
  split
  · exact h
  · exact { h with }

/-- The tree on the stack becomes a statement. -/
theorem finish (h : s.Draws v) (hstack : s.stack = [t])
    (ht : ∀ e ∈ t.edges, e.2 < s.graph.blockCount) (i : Nat) :
    (s.finish i).stack = [] ∧ (s.finish i).Draws { v with
      start := i + 1
      sizes := []
      cur := v.cur.push (s.graph.outline (v.start, t)) } := by
  simp only [Importer.finish, hstack]
  refine ⟨trivial, ?_, h.first_eq, rfl, rfl⟩
  rw [h.start_eq]
  exact h.graph.append (Int.natCast_nonneg _) ht

/-- All values on the stack are folded into a statement. -/
theorem fold_finish (h : s.Draws v) (kind : TreeKind) (operands : List Operand)
    (hedges : ∀ e ∈ operands.filterMap Operand.edge?, e.2 < s.graph.blockCount) (i : Nat) :
    ∃ s', s.fold v.sizes.length kind operands = .ok s' ∧
      ((s'.finish i).stack = [] ∧
        (s'.finish i).Draws (v.finish i kind (operands.map s.graph.mention))) ∧
      ((s'.noteStore i).finish i).stack = [] ∧
        ((s'.noteStore i).finish i).Draws (v.finish i kind (operands.map s.graph.mention)) := by
  obtain ⟨t, s', hfold, hstack, rfl, rfl, hsame, hdraws⟩ := h.fold (Nat.le_refl _) kind operands
  have hnil : s.stack.drop v.sizes.length = [] := by
    rw [← h.sizes_eq, List.length_map, List.drop_length]
  rw [hnil] at hstack
  have hkept := OffsetsKept.of_sameBlocks hsame
  have ht : ∀ e ∈ t.edges, e.2 < s'.graph.blockCount := fun e he => (hkept e.2 (hedges e he)).1
  have hsize : [t.postorder.length] = [v.sizes.sum + 1] := by
    have hsizes := hdraws.sizes_eq
    rw [hstack, View.fold, List.take_length, List.drop_length] at hsizes
    exact hsizes
  have hline : s'.graph.outline ((v.fold v.sizes.length).start, t) =
      ⟨v.start, t.kind, t.operands.map s.graph.mention, v.sizes.sum + 1⟩ := by
    rw [Graph.outline, hkept.map_mention hedges, (List.cons.inj hsize).1]
    rfl
  have hstore : (s'.noteStore i).stack = [t] ∧ (s'.noteStore i).graph = s'.graph := by
    simp only [Importer.noteStore, hstack, and_self]
  refine ⟨s', hfold, ?_, ?_⟩
  · have hfinish := hdraws.finish hstack ht i
    rw [hline] at hfinish
    exact hfinish
  · have hfinish := (hdraws.noteStore i).finish hstore.1 (hstore.2 ▸ ht) i
    rw [hstore.2, hline] at hfinish
    exact hfinish

end Importer.Draws

/-! ## What instructions do to a view -/

open Importer (Leads)

/-- Reading `code`, of which the first instruction has offset `i`, leads from the view `v` to the
view `v'`, whatever else the importer has. -/
def Redraws (i : Nat) (code : List Instr) (v v' : View) : Prop :=
  ∀ s : Importer, s.Draws v → ∃ s', Leads i code s s' ∧ s'.Draws v'

namespace Redraws

variable {i : Nat} {code code' : List Instr} {v v' v'' : View} {operands : List Literal}

theorem nil (i : Nat) (v : View) : Redraws i [] v v :=
  fun s hs => ⟨s, .nil i s, hs⟩

theorem append {j : Nat} (h : Redraws i code v v') (hj : i + code.length = j)
    (h' : Redraws j code' v' v'') : Redraws i (code ++ code') v v'' := by
  subst hj
  intro s hs
  obtain ⟨s₁, hleads, hs₁⟩ := h s hs
  obtain ⟨s₂, hleads', hs₂⟩ := h' s₁ hs₁
  exact ⟨s₂, hleads.append hleads', hs₂⟩

theorem cons {instr : Instr} (h : Redraws i [instr] v v') (h' : Redraws (i + 1) code v' v'') :
    Redraws i (instr :: code) v v'' :=
  h.append rfl h'

theorem of_step {instr : Instr}
    (h : ∀ s : Importer, s.Draws v → ∃ s', s.step i false instr = .ok s' ∧ s'.Draws v') :
    Redraws i [instr] v v' := by
  intro s hs
  obtain ⟨s', hstep, hs'⟩ := h s hs
  exact ⟨s', .cons hstep (.nil _ _), hs'⟩

theorem load (i : Nat) (v : View) (operands : List Literal) :
    Redraws i [⟨.ldLocal, operands⟩] v (v.fold 0) := by
  refine of_step fun s hs => ?_
  obtain ⟨t, s', hfold, -, -, -, -, hs'⟩ := hs.fold (Nat.zero_le _) .ldLocal
    (operands.map .literal)
  refine ⟨s', ?_, hs'⟩
  simp only [Importer.step, hfold, ok_bind]
  rfl

theorem push (i : Nat) (v : View) (operands : List Literal) :
    Redraws i [⟨.push, operands⟩] v (v.fold 0) := by
  refine of_step fun s hs => ?_
  obtain ⟨t, s', hfold, -, -, -, -, hs'⟩ := hs.fold (Nat.zero_le _) .const (operands.map .literal)
  refine ⟨s', ?_, hs'⟩
  simp only [Importer.step, hfold, ok_bind]
  rfl

theorem binary (i : Nat) (hv : 2 ≤ v.sizes.length) (op : Operator) (operands : List Literal) :
    Redraws i [⟨.binary op, operands⟩] v (v.fold 2) := by
  refine of_step fun s hs => ?_
  obtain ⟨t, s', hfold, -, -, -, -, hs'⟩ := hs.fold hv .binOp [.operator op]
  refine ⟨s', ?_, hs'⟩
  simp only [Importer.step, hfold, ok_bind]
  rfl

theorem store (i : Nat) (hv : v.sizes.length = 1) (operands : List Literal) :
    Redraws i [⟨.stLocal, operands⟩] v (v.finish i .stLocal (operands.map .literal)) := by
  refine of_step fun s hs => ?_
  have hedges : ∀ e ∈ (operands.map Operand.literal).filterMap Operand.edge?,
      e.2 < s.graph.blockCount := by
    simp [List.filterMap_map, Function.comp_def, Operand.edge?]
  obtain ⟨s', hfold, -, hempty, hs'⟩ := hs.fold_finish .stLocal _ hedges i
  rw [hv] at hfold
  rw [List.map_map] at hs'
  refine ⟨_, ?_, hs'⟩
  simp only [Importer.step, hfold, ok_bind, Importer.requireEmpty_eq_ok hempty]
  rfl

end Redraws

/-- A look-up of `offset` gives a block that starts there, and leads from the view `v` to the view
`v'`. -/
def View.Finds (v : View) (offset : Int) (v' : View) : Prop :=
  ∀ s : Importer, s.Draws v → ∃ b s', s.target offset = .ok (b, s') ∧
    OffsetsKept s.graph s'.graph ∧ b < s'.graph.blockCount ∧
    (s'.graph.block b).offset = offset ∧ s'.Draws v'

/-- Going on behind the instruction at `i`, which leaves the current block, leads from the view `v`
to the view `v'`. -/
def View.Leaves (v : View) (i : Nat) (v' : View) : Prop :=
  ∀ s : Importer, s.Draws v → ∃ s', s.leave i false = .ok s' ∧ s'.Draws v'

namespace View

variable {v v' : View} {offset : Int} {i : Nat}

theorem finds_of_blockAt {done ahead : List Draft}
    (h : ∀ g : Graph, ∀ current, g.Draws current v.done v.cur v.ahead →
      ∃ b g', Graph.blockAt 0 offset g = .ok b g' ∧ g'.Draws current done v.cur ahead) :
    v.Finds offset { v with done, ahead } := by
  intro s hs
  obtain ⟨b, g', hlook, hdraws⟩ := h s.graph s.block hs.graph
  obtain ⟨hlt, hoffset⟩ := hs.graph.placed.grown.blockAt_offset hlook
  refine ⟨b, { s with graph := g' }, ?_, OffsetsKept.lookup hlook, hlt, hoffset,
    hdraws, hs.first_eq, hs.start_eq, hs.sizes_eq⟩
  rw [Importer.target, hs.first_eq, hlook]

/-- The block is there. -/
theorem finds_existing {d : Draft} (hd : d ∈ v.drafts) (hnonneg : 0 ≤ d.offset) :
    v.Finds d.offset v := by
  refine finds_of_blockAt fun g current hg => ?_
  obtain ⟨b, hlook⟩ := hg.blockAt_existing hd hnonneg
  exact ⟨b, g, hlook, hg⟩

/-- The block is put in behind the current one. -/
theorem finds_behind (hnonneg : 0 ≤ offset) (hcur : v.cur.offset < offset)
    (hahead : ∀ d ∈ v.ahead, offset < d.offset) (hne : v.cur.lines ≠ [])
    (hplaced : ∀ x ∈ v.cur.lines, x.offset < offset) :
    v.Finds offset { v with ahead := ⟨offset, []⟩ :: v.ahead } :=
  finds_of_blockAt fun _ _ hg => hg.blockAt_behind hnonneg hcur hahead hne hplaced

/-- The block is the last statement of one that was left. -/
theorem finds_cut {before after : List Draft} {d : Draft} {init : List Outline} {line : Outline}
    (hdone : v.done = before ++ d :: after) (hline : line.offset = offset) (hnonneg : 0 ≤ offset)
    (hd : d.offset < offset) (hafter : ∀ e ∈ after ++ v.cur :: v.ahead, offset < e.offset)
    (hlines : d.lines = init ++ [line]) (hinit : ∀ x ∈ init, x.offset < offset) :
    v.Finds offset { v with
      done := before ++ ⟨d.offset, init ++ [⟨(init.getLast?.map Outline.offset).getD d.offset, .jmp,
        [.block offset], 1⟩]⟩ :: ⟨offset, [line]⟩ :: after } := by
  refine finds_of_blockAt fun g current hg => ?_
  rw [hdone] at hg
  exact hg.blockAt_cut hline hnonneg hd hafter hlines hinit

/-- The block behind the instruction becomes the current one. -/
theorem leaves_of_finds {next : Draft} {rest : List Draft} (h : v.Finds (i + 1 : Nat) v')
    (hahead : v'.ahead = next :: rest) (hnext : next.offset = (i + 1 : Nat)) :
    v.Leaves i { v' with done := v'.done ++ [v'.cur], cur := next, ahead := rest } := by
  intro s hs
  obtain ⟨b, s', htarget, -, hlt, hoffset, hs'⟩ := h s hs
  have hgraph := hs'.graph
  rw [hahead] at hgraph
  refine ⟨{ s' with block := b }, ?_, hgraph.advance hlt (hoffset.trans hnext.symm), hs'.first_eq,
    hs'.start_eq, hs'.sizes_eq⟩
  simp only [Importer.leave, Bool.false_eq_true, if_false, htarget, ok_bind]

/-- The block behind the instruction was looked up before. -/
theorem leaves_existing {next : Draft} {rest : List Draft} (hahead : v.ahead = next :: rest)
    (hnext : next.offset = (i + 1 : Nat)) :
    v.Leaves i { v with done := v.done ++ [v.cur], cur := next, ahead := rest } := by
  refine leaves_of_finds (hnext ▸ finds_existing ?_ ?_) hahead hnext
  · simp [drafts, hahead]
  · exact hnext ▸ Int.natCast_nonneg _

end View

namespace Redraws

variable {i : Nat} {v v₁ v₂ v' : View} {x y : Int}

theorem jmp (hx : v.Finds x v₁) (hempty : v₁.sizes = [])
    (hleaves : (v₁.finish i .jmp [.block x]).Leaves i v') :
    Redraws i [⟨.jmp, [.num x]⟩] v v' := by
  refine of_step fun s hs => ?_
  obtain ⟨b, s₁, htarget, -, hlt, hoffset, hs₁⟩ := hx s hs
  have hedge := hs₁.newEdge b
  obtain ⟨s₂, hfold, ⟨hstack, hs₂⟩, -⟩ :=
    hedge.fold_finish .jmp [(s₁.newEdge b).1]
      (by rintro e he; obtain rfl := List.mem_singleton.mp he; exact hlt) i
  rw [hempty] at hfold
  have hmention : [(s₁.newEdge b).1].map (s₁.newEdge b).2.graph.mention = [.block x] :=
    congrArg (fun offset => [Mention.block offset]) hoffset
  rw [hmention] at hs₂
  obtain ⟨s₃, hleave, hs₃⟩ := hleaves _ hs₂
  refine ⟨s₃, ?_, hs₃⟩
  simp only [Importer.step, Importer.edgeTo, List.getElem?_cons_zero, htarget, ok_bind]
  rw [show Importer.fold 0 .jmp [(s₁.newEdge b).1] (s₁.newEdge b).2 = .ok s₂ from hfold]
  simp only [ok_bind, Importer.requireEmpty_eq_ok hstack, hleave]

theorem branch (hx : v.Finds x v₁) (hy : v₁.Finds y v₂) (hone : v₂.sizes.length = 1)
    (hleaves : (v₂.finish i .branch [.block x, .block y]).Leaves i v') :
    Redraws i [⟨.branch, [.num x, .num y]⟩] v v' := by
  refine of_step fun s hs => ?_
  obtain ⟨b, s₁, hyes, -, hb, hboffset, hs₁⟩ := hx s hs
  obtain ⟨c, s₂, hno, hkept, hc, hcoffset, hs₂⟩ := hy s₁ hs₁
  obtain ⟨hb, hbkept⟩ := hkept b hb
  have hedges := (hs₂.newEdge b).newEdge c
  let yes := (s₂.newEdge b).1
  let no := ((s₂.newEdge b).2.newEdge c).1
  obtain ⟨s₃, hfold, ⟨hstack, hs₃⟩, -⟩ :=
    hedges.fold_finish .branch [yes, no] (by
      intro e he
      rcases List.mem_cons.mp he with rfl | he
      · exact hb
      · obtain rfl := List.mem_singleton.mp he
        exact hc) i
  rw [hone] at hfold
  have hmention : [yes, no].map ((s₂.newEdge b).2.newEdge c).2.graph.mention =
      [.block x, .block y] := by
    change [Mention.block (s₂.graph.block b).offset, .block (s₂.graph.block c).offset] = _
    rw [hbkept, hboffset, hcoffset]
  rw [hmention] at hs₃
  obtain ⟨s₄, hleave, hs₄⟩ := hleaves _ hs₃
  refine ⟨s₄, ?_, hs₄⟩
  simp only [Importer.step, Importer.edgeTo, List.getElem?_cons_zero, List.getElem?_cons_succ,
    hyes, hno, ok_bind]
  rw [show Importer.fold 1 .branch [yes, no] ((s₂.newEdge b).2.newEdge c).2 = .ok s₃ from hfold]
  simp only [ok_bind, Importer.requireEmpty_eq_ok hstack, hleave]

theorem ret (hone : v.sizes.length = 1) (hleaves : (v.finish i .ret []).Leaves i v')
    (operands : List Literal) : Redraws i [⟨.ret, operands⟩] v v' := by
  refine of_step fun s hs => ?_
  obtain ⟨s₁, hfold, ⟨-, hs₁⟩, -⟩ := hs.fold_finish .ret [] (by simp) i
  rw [hone] at hfold
  obtain ⟨s₂, hleave, hs₂⟩ := hleaves _ hs₁
  refine ⟨s₂, ?_, hs₂⟩
  simp only [Importer.step, hfold, ok_bind, hleave]

end Redraws

/-! ## The drafts of a program -/

/-- A program that ends with a return is read from the first view to the last one. -/
theorem Redraws.run_ret {code : List Instr} {v : View}
    (h : Redraws 0 code { start := 0, cur := ⟨0, []⟩ } v) (hone : v.sizes.length = 1)
    (operands : List Literal) :
    ∃ s, Importer.run 0 (code ++ [⟨.ret, operands⟩]) .fresh = .ok s ∧
      s.Draws (v.finish code.length .ret []) := by
  obtain ⟨s, hleads, hs⟩ := h _ Importer.Draws.start
  obtain ⟨s₁, hfold, ⟨-, hs₁⟩, -⟩ := hs.fold_finish .ret [] (by simp) code.length
  rw [hone] at hfold
  refine ⟨_, ?_, hs₁⟩
  rw [hleads _ (by simp), Nat.zero_add]
  simp only [Importer.run, Importer.step, hfold, ok_bind]
  rfl

/-- A program whose last view shows closed blocks is read.  Its blocks have the drafts of that
view, which tell their predecessors and how many trees there are.  Each tree is reached once. -/
theorem Program.import?_of_draws {p : Program} {s : Importer} {v : View}
    (hrun : Importer.run 0 p.instrs .fresh =
      .ok s)
    (hs : s.Draws v) (hclosed : ∀ d ∈ v.drafts, d.Closed) :
    ∃ m, p.import? = .ok m ∧
      (m.ir.blocks m.graph).map m.graph.draft = v.drafts ∧
      (m.ir.blocks m.graph).map (fun b =>
          (m.notes.block b).predecessors.map fun c => (m.graph.block c).offset) =
        v.drafts.map (fun d => sourcesAt v.drafts d.offset) ∧
      m.ir.count = (v.drafts.map fun d => (d.lines.map Outline.size).sum).sum ∧
      ((m.ir.trees m.graph).map Tree.id).Nodup := by
  have hdrafts : (s.graph.blocksFrom 0).map s.graph.draft = v.drafts := hs.graph.map_draft
  have hended := hs.graph.ended
  obtain ⟨m, himport⟩ : ∃ m, p.import? = .ok m := by
    have hspans : ∀ b ∈ s.graph.blocksFrom 0, (s.graph.span b).Closed := fun b hb =>
      Graph.closed_span (hclosed _ (hdrafts ▸ List.mem_map_of_mem hb))
    obtain ⟨n, hpred⟩ := notePredecessors_returns hended hspans Notes.Fresh.empty
    have hpred' : (⟨0, p.locals, 0⟩ : Ir).recomputePredecessors s.graph {} = .ok () n := hpred
    rw [Program.import?_eq, hrun, ok_bind, hpred']
    exact ⟨_, rfl⟩
  obtain ⟨s', n', hrun', -, hgraph, hir, -⟩ := Program.import?_cases himport
  obtain rfl : s = s' := Except.ok.inj (hrun.symm.trans hrun')
  obtain ⟨⟨pending, hformed⟩, -, -⟩ := Program.import?_formed himport
  have hblocks : m.ir.blocks m.graph = m.graph.blocksFrom 0 := by
    rw [Ir.blocks, hir]
  rw [← hgraph] at hdrafts hended
  have hplaced : m.graph.Placed := hgraph ▸ hs.graph.placed
  refine ⟨m, himport, ?_, ?_, ?_, ?_⟩
  · rw [hblocks, hdrafts]
  · rw [← hdrafts, List.map_map, hblocks]
    refine List.map_congr_left fun c hc => ?_
    have hlt := (hformed.chained.mem_iff c).mp hc
    rw [Program.import?_predecessors himport, hblocks]
    refine Graph.map_offset_sourcesOf hplaced hended ?_ hlt
    intro b hb x hx
    obtain ⟨r, hr, hedge⟩ := Alloc.mem_exits hx
    have htree := Graph.mem_statementTrees (hformed.linked.last_lt hr)
    exact (hformed.planted.edge_lt _ (List.mem_append_left _ htree) x hedge).2
  · rw [hir, ← hdrafts, hgraph]
    exact s.graph.length_treesFrom 0
  · rw [Ir.trees, hir]
    exact treesFrom_ids_nodup hformed hended

end LinearScan
