import LinearScan.Proofs.Homes

/-!
# Reading keeps statements in order

As long as no block is cut in its middle, the statements of the graph under construction are
arranged as `Listing.Arranged` says.  Each instruction keeps this, or cuts a block in its
middle; after such a cut some tree is reached twice, whatever is read later.  So in a program
whose trees are reached once each, all statements are arranged.
-/

namespace LinearScan

open Listing

namespace Graph

variable {g g' : Graph} {b c : BlockId} {s : StmtId} {offset : Int} {t : Tree}

/-! ## What changes do to the spans -/

theorem SameBlocks.span_eq (h : g.SameBlocks g') : g'.span = g.span := by
  funext b
  rw [span, span, h.block_eq, h.entries_eq]

theorem span_append (he : g.Ended) (hg : g.Linked) (b : BlockId) (offset : Int) (t : Tree) :
    (g.append b offset t).span = Listing.push g.span b offset t := by
  funext c
  have hoffset : ((g.append b offset t).block c).offset = (g.block c).offset := by
    rw [append_block]
    split <;> rfl
  rw [span, entries_append he hg, hoffset, Listing.push, Function.update_apply]
  split
  · next hc => rw [hc, span, Span.push]
  · rfl

theorem span_insertBehind (g : Graph) (b : BlockId) (offset : Int) :
    (g.insertBehind b offset).span = Listing.insert g.span g.blockCount offset := by
  funext c
  rw [span, entries_insertBehind, insertBehind_offset, Listing.insert, Function.update_apply]
  split <;> rfl

theorem span_split (hg : g.Threaded) (he : g.Ended) (h : g.locate 0 offset = .ok (.within b s))
    (hlt : (g.block b).offset < offset) (hlast : (g.block b).last = some s)
    {init : List (Int × Tree)} (hentries : g.entries b = init ++ [(offset, t)]) :
    (g.split b s offset).span =
      Listing.cut g.span b g.blockCount init (g.splitOffset b, g.splitJump b) (offset, t) := by
  obtain ⟨hfront, hrear, hothers⟩ := entries_split hg he h hlt hlast hentries
  have hb : b ≠ g.blockCount := Nat.ne_of_lt (locate_spec hg.chained h).1
  funext c
  rw [span, split_offset, insertBehind_offset, Listing.cut, Function.update_apply,
    Function.update_apply]
  by_cases hc : c = g.blockCount
  · rw [if_pos hc, if_pos hc, hc, hrear]
  · rw [if_neg hc, if_neg hc]
    by_cases hcb : c = b
    · rw [if_pos hcb, hcb, hfront]
      rfl
    · rw [if_neg hcb, hothers c hcb hc]
      rfl

/-- A search that ends inside a block ends behind the start of the block. -/
theorem Placed.offset_lt_of_within (hg : g.Placed) (h : g.locate 0 offset = .ok (.within b s)) :
    (g.block b).offset < offset := by
  have hthreaded := hg.grown.threaded
  obtain ⟨hb, hne, -⟩ := locate_within h
  have hpos := hg.offset_pos h (by simp)
  have hrising := hg.rising
  rw [← hthreaded.cons_tail] at hrising
  have hzero : (g.block 0).offset ≤ offset := by
    rw [hthreaded.zero_offset]
    exact Int.le_of_lt hpos
  obtain ⟨-, -, -, hle, -⟩ := landing_spec hrising hzero
  rw [hb] at hle
  omega

theorem tree_mem_of_mem_entries (hg : g.Linked) {x : Int × Tree} (hx : x ∈ g.entries b) :
    x.2 ∈ g.statementTrees := by
  obtain ⟨r, hr, rfl⟩ := List.mem_map.mp hx
  exact mem_statementTrees (hg.lt_of_mem_stmtsOf hr)

end Graph

/-! ## Reading -/

namespace Importer

/-- The statements read so far are arranged, and what is on the stack fits in. -/
structure InOrder (i : Nat) (s : Importer) : Prop where
  ended : s.graph.Ended
  arrangedUpTo : ArrangedUpTo s.graph.span s.block s.stack s.start
  start_le : s.start ≤ i

/-- The statements read so far are arranged, or a block was cut in its middle. -/
def InOrderOrTorn (i : Nat) (s : Importer) : Prop :=
  s.InOrder i ∨ s.graph.Torn

variable {code : List Instr} {s s' : Importer} {i : Nat} {isLast : Bool} {b : BlockId}

theorem Read.unused (hs : s.Read code) : Unused s.graph.span s.stack s.graph.blockCount where
  entry_ne := by
    intro b x hx t ht
    refine Nat.ne_of_lt (hs.directed t (List.mem_flatMap.mpr ⟨x.2, ?_, ht⟩)).1
    exact List.mem_append_left _
      (Graph.tree_mem_of_mem_entries hs.placed.grown.threaded.linked hx)
  stack_ne := by
    intro root hroot t ht
    exact Nat.ne_of_lt
      (hs.directed t (List.mem_flatMap.mpr ⟨root, List.mem_append_right _ hroot, ht⟩)).1

namespace InOrder

theorem start : Importer.fresh.InOrder 0 ∧ Open Importer.fresh.graph.span 0 := by
  rw [Importer.fresh]
  have hentries : ∀ b, ((({} : Graph).newChain).span b).entries = [] := by
    intro b
    rw [Graph.span, Graph.entries, Graph.stmtsOf_eq_nil, List.map_nil]
    exact congrArg Block.first (Graph.block_newChain b)
  have harranged : ArrangedUpTo (({} : Graph).newChain).span 0 [] 0 ∧
      Open (({} : Graph).newChain).span 0 :=
    arrangedUpTo_of_entries_eq_nil hentries
      (Int.le_of_eq (congrArg Block.offset (Graph.block_newChain 0)))
  refine ⟨⟨?_, harranged.1, Nat.le_refl 0⟩, harranged.2⟩
  intro b
  rw [Graph.stmtsOf_eq_nil (congrArg Block.first (Graph.block_newChain b)), Graph.block_newChain]
  rfl

theorem fold {n : Nat} {kind : TreeKind} {operands : List Operand} (hs : s.InOrder i)
    (h : s.fold n kind operands = .ok s') : s'.InOrder i := by
  obtain ⟨-, rfl⟩ := fold_cases h
  have hsame := s.graph.sameBlocks_newTree kind operands s.block (s.stack.take n).reverse
  refine ⟨hs.ended.congr hsame, ?_, hs.start_le⟩
  dsimp only
  rw [hsame.span_eq]
  refine hs.arrangedUpTo.restack ?_
  intro root hroot u hu
  rcases List.mem_cons.mp hroot with rfl | hroot
  · rw [Tree.postorder_eq] at hu
    rcases List.mem_append.mp hu with hu | hu
    · obtain ⟨v, hv, hu⟩ := List.mem_flatMap.mp hu
      exact Or.inr ⟨v, List.mem_of_mem_take (List.mem_reverse.mp hv), hu⟩
    · rw [List.mem_singleton.mp hu]
      exact Or.inl rfl
  · exact Or.inr ⟨root, List.mem_of_mem_drop hroot, hu⟩

theorem newEdge (hs : s.InOrder i) (b : BlockId) : (s.newEdge b).2.InOrder i := by
  have hsame := s.graph.sameBlocks_newEdge b
  refine ⟨hs.ended.congr hsame, ?_, hs.start_le⟩
  show ArrangedUpTo (s.graph.newEdge b).2.span s.block s.stack s.start
  rw [hsame.span_eq]
  exact hs.arrangedUpTo

/-- The offset at which the jump of a cut is put is one that was read. -/
theorem splitOffset_lt (hs : s.InOrder i) (hg : s.graph.Threaded)
    (hne : s.graph.entries b ≠ []) : s.graph.splitOffset b < s.start := by
  rw [Graph.splitOffset]
  cases hbefore : s.graph.splitBefore b with
  | none => exact hs.arrangedUpTo.block_lt (b := b) hne
  | some r =>
      obtain ⟨l, hl, hprev⟩ := Option.bind_eq_some_iff.mp hbefore
      obtain ⟨before, hstmts⟩ := hg.stmtsOf_of_prev_last hs.ended hl hprev
      refine hs.arrangedUpTo.entry_lt (b := b)
        (x := ((s.graph.stmt r).offset, (s.graph.stmt r).tree)) ?_
      exact List.mem_map.mpr ⟨r, by simp [hstmts], rfl⟩

/-- A look-up keeps the order, or cuts a block in its middle. -/
theorem target {offset : Int} (hread : s.Read code) (hs : s.InOrder i)
    (h : s.target offset = .ok (b, s')) : s'.InOrderOrTorn i := by
  obtain ⟨g, hblock, rfl⟩ := target_cases h
  rw [hread.first_eq] at hblock
  have hg := hread.placed.grown.threaded
  have hcur : s.block ≠ s.graph.blockCount := Nat.ne_of_lt hread.block_lt
  rcases Graph.blockAt_cases hblock with ⟨-, rfl⟩ | ⟨c, -, -, rfl⟩ | ⟨c, r, hplace, -, rfl⟩
  · exact Or.inl hs
  · refine Or.inl ⟨hs.ended.insertBehind c offset, ?_, hs.start_le⟩
    dsimp only
    rw [Graph.span_insertBehind]
    exact hs.arrangedUpTo.insert hread.unused hcur
  · by_cases hlast : (s.graph.block c).last = some r
    · have hlt := hread.placed.offset_lt_of_within hplace
      obtain ⟨front, hstmts⟩ := List.getLast?_eq_some_iff.mp ((hs.ended c).symm.trans hlast)
      have hentries : s.graph.entries c =
          (front.map fun q => ((s.graph.stmt q).offset, (s.graph.stmt q).tree)) ++
            [(offset, (s.graph.stmt r).tree)] := by
        rw [Graph.entries, hstmts, List.map_append, List.map_singleton,
          (Graph.locate_within hplace).2.2.2.2]
      refine Or.inl ⟨hs.ended.split hg hplace hlt hlast, ?_, hs.start_le⟩
      dsimp only
      rw [Graph.span_split hg hs.ended hplace hlt hlast hentries]
      exact hs.arrangedUpTo.cut hread.unused hcur hentries rfl rfl
        (hs.splitOffset_lt hg (by rw [hentries]; simp))
    · exact Or.inr (Graph.torn_split hg hs.ended hplace hlast)

/-- The topmost tree becomes the last statement of the current block. -/
theorem finish {t : Tree} {rest : List Tree} (hread : s.Read code) (hs : s.InOrder i)
    (hstack : s.stack = t :: rest) (hblock : t.block = s.block)
    (hopen : t.kind = .jmp ∨ t.kind = .branch ∨ Open s.graph.span s.block)
    (hrest : t.kind = .stLocal → rest = []) :
    (s.finish i).InOrder (i + 1) ∧ (s.finish i).start = i + 1 ∧
      (s.finish i).graph.span = Listing.push s.graph.span s.block s.start t := by
  have hlinked := hread.placed.grown.threaded.linked
  have hspan := Graph.span_append hs.ended hlinked s.block s.start t
  have harranged := hs.arrangedUpTo
  rw [hstack] at harranged
  simp only [Importer.finish, hstack]
  refine ⟨⟨hs.ended.append hlinked s.block s.start t, ?_, Nat.le_refl _⟩, trivial, hspan⟩
  dsimp only
  rw [hspan]
  exact harranged.push hblock hopen hrest (Nat.lt_succ_of_le hs.start_le)

/-- Reading goes on behind the block that was left. -/
theorem leave (hread : s.Read code) (hs : s.InOrder (i + 1)) (hstart : s.start = i + 1)
    (hne : (s.graph.span s.block).entries ≠ []) (h : s.leave i isLast = .ok s') :
    s'.InOrder (i + 1) ∧ (isLast = false → Open s'.graph.span s'.block) := by
  rcases leave_cases h with ⟨hlast, rfl⟩ | ⟨-, b, s₁, htarget, rfl⟩
  · refine ⟨hs, ?_⟩
    rw [hlast]
    intro hfalse
    cases hfalse
  · obtain ⟨g, hblock, rfl⟩ := target_cases htarget
    rw [hread.first_eq] at hblock
    have hcur : s.block ≠ s.graph.blockCount := Nat.ne_of_lt hread.block_lt
    rcases Graph.blockAt_cases hblock with ⟨hplace, rfl⟩ | ⟨c, -, rfl, rfl⟩ |
      ⟨c, r, hplace, -, rfl⟩
    · -- A block that starts here has no statements yet.
      have hoffset := (Graph.locate_spec hread.placed.grown.threaded.chained hplace).2
      have hempty : (s.graph.span b).entries = [] := by
        by_contra hfull
        have hlt := hs.arrangedUpTo.block_lt hfull
        rw [Graph.span, hoffset, hstart] at hlt
        exact Int.lt_irrefl _ hlt
      obtain ⟨harranged, hopen⟩ :=
        hs.arrangedUpTo.leave hne hempty (by rw [Graph.span, hoffset, hstart])
      exact ⟨⟨hs.ended, harranged, hs.start_le⟩, fun _ => hopen⟩
    · have hspan := s.graph.span_insertBehind c (i + 1 : Nat)
      have hinserted : ArrangedUpTo (Listing.insert s.graph.span s.graph.blockCount (i + 1 : Nat))
          s.block s.stack s.start := hs.arrangedUpTo.insert hread.unused hcur
      obtain ⟨harranged, hopen⟩ := hinserted.leave (b := s.graph.blockCount)
        (by rwa [entries_insert, if_neg hcur])
        (by rw [entries_insert, if_pos rfl])
        (by rw [offset_insert, if_pos rfl, hstart])
      rw [← hspan] at harranged hopen
      exact ⟨⟨hs.ended.insertBehind c _, harranged, hs.start_le⟩, fun _ => hopen⟩
    · -- All statements start before.
      obtain ⟨-, -, -, hr, hoffset⟩ := Graph.locate_within hplace
      have hlt := hs.arrangedUpTo.entry_lt (b := c)
        (x := ((s.graph.stmt r).offset, (s.graph.stmt r).tree)) (List.mem_map.mpr ⟨r, hr, rfl⟩)
      rw [hoffset, hstart] at hlt
      exact absurd hlt (Int.lt_irrefl _)

end InOrder

/-! ## Torn graphs stay torn -/

namespace Read

section

variable (hread : s.Read code) (htorn : s.graph.Torn)
include hread htorn

theorem torn_fold {n : Nat} {kind : TreeKind} {operands : List Operand}
    (h : s.fold n kind operands = .ok s') : s'.graph.Torn := by
  have hlinked := hread.placed.grown.threaded.linked
  obtain ⟨-, rfl⟩ := fold_cases h
  exact htorn.keeps hlinked ((s.graph.sameBlocks_newTree kind operands s.block _).keepsInner
    (hlinked.newTree kind operands s.block _))

theorem torn_newEdge (b : BlockId) : (s.newEdge b).2.graph.Torn := by
  have hlinked := hread.placed.grown.threaded.linked
  exact htorn.keeps hlinked ((s.graph.sameBlocks_newEdge b).keepsInner (hlinked.newEdge b))

theorem torn_finish (i : Nat) : (s.finish i).graph.Torn := by
  have hthreaded := hread.placed.grown.threaded
  rw [Importer.finish]
  split
  · exact htorn
  · exact htorn.keeps hthreaded.linked (Graph.keepsInner_append hthreaded _ _ _)

theorem torn_target {offset : Int} (h : s.target offset = .ok (b, s')) : s'.graph.Torn := by
  obtain ⟨g, hblock, rfl⟩ := target_cases h
  rw [hread.first_eq] at hblock
  have hthreaded := hread.placed.grown.threaded
  exact htorn.keeps hthreaded.linked (Graph.keepsInner_lookup hthreaded hblock)

theorem torn_leave (h : s.leave i isLast = .ok s') : s'.graph.Torn := by
  rcases leave_cases h with ⟨-, rfl⟩ | ⟨-, b, s₁, htarget, rfl⟩
  · exact htorn
  · have htorn₁ := hread.torn_target htorn htarget
    exact htorn₁

end

end Read

namespace InOrderOrTorn

section

variable (hread : s.Read code) (hs : s.InOrderOrTorn i)
include hread hs

theorem edgeTo {operands : List Literal} {k : Nat} (h : s.edgeTo operands k = .ok (b, s')) :
    s'.InOrderOrTorn i := by
  obtain ⟨offset, -, htarget⟩ := edgeTo_cases h
  rcases hs with hs | htorn
  · exact hs.target hread htarget
  · exact Or.inr (hread.torn_target htorn htarget)

theorem newEdge (b : BlockId) : (s.newEdge b).2.InOrderOrTorn i :=
  hs.imp (fun hs => hs.newEdge b) fun htorn => hread.torn_newEdge htorn b

/-- A statement that leaves the current block. -/
theorem depart {n : Nat} {kind : TreeKind} {operands : List Operand} {s₁ : Importer}
    (hkind : kind = .jmp ∨ kind = .branch ∨ Open s.graph.span s.block) (hstore : kind ≠ .stLocal)
    (hedges : kind = .jmp ∨ kind = .branch ∨ operands.filterMap Operand.edge? = [])
    (hfold : s.fold n kind operands = .ok s₁) (hleave : (s₁.finish i).leave i isLast = .ok s') :
    (s'.InOrder (i + 1) ∧ (isLast = false → Open s'.graph.span s'.block)) ∨ s'.graph.Torn := by
  have hread₁ := hread.fold hfold hedges
  have hread₂ := hread₁.finish i
  rcases hs with hs | htorn
  · have hs₁ := hs.fold hfold
    have hsame : s₁.graph.span = s.graph.span ∧ s₁.block = s.block ∧
        ∃ t rest, s₁.stack = t :: rest ∧ t.kind = kind ∧ t.block = s.block := by
      obtain ⟨-, rfl⟩ := fold_cases hfold
      exact ⟨(s.graph.sameBlocks_newTree kind operands s.block _).span_eq, rfl, _, _, rfl, rfl, rfl⟩
    obtain ⟨hspan, hblock, t, rest, hstack, rfl, ht⟩ := hsame
    obtain ⟨hs₂, hstart, hpush⟩ := hs₁.finish hread₁ hstack (ht.trans hblock.symm)
      (by rwa [hspan, hblock]) (fun h => absurd h hstore)
    refine Or.inl (hs₂.leave hread₂ hstart ?_ hleave)
    have hsame₂ : (s₁.finish i).block = s₁.block := by
      rw [Importer.finish, hstack]
    rw [hpush, hsame₂, entries_push, if_pos rfl]
    simp
  · exact Or.inr (hread₂.torn_leave (hread₁.torn_finish (hread.torn_fold htorn hfold) i) hleave)

end

end InOrderOrTorn

/-- Between two instructions the current block is open as well, unless a block was cut in its
middle. -/
def Ready (i : Nat) (s : Importer) : Prop :=
  (s.InOrder i ∧ Open s.graph.span s.block) ∨ s.graph.Torn

namespace Ready

theorem inOrderOrTorn (hs : s.Ready i) : s.InOrderOrTorn i :=
  hs.imp_left And.left

theorem fold {n : Nat} {kind : TreeKind} {operands : List Operand} (hread : s.Read code)
    (hs : s.Ready i) (h : s.fold n kind operands = .ok s') : s'.Ready i := by
  rcases hs with ⟨hs, hopen⟩ | htorn
  · refine Or.inl ⟨hs.fold h, ?_⟩
    obtain ⟨-, rfl⟩ := fold_cases h
    dsimp only
    rwa [(s.graph.sameBlocks_newTree kind operands s.block _).span_eq]
  · exact Or.inr (hread.torn_fold htorn h)

theorem succ (hs : s.Ready i) : s.Ready (i + 1) := by
  refine hs.imp_left ?_
  rintro ⟨hs, hopen⟩
  exact ⟨{ hs with start_le := Nat.le_succ_of_le hs.start_le }, hopen⟩

/-- A statement that stays in the current block. -/
theorem stay {n : Nat} {kind : TreeKind} {operands : List Operand} {s₁ : Importer}
    (hread : s.Read code) (hs : s.Ready i) (hkind : kind.leaves = false)
    (hedges : operands.filterMap Operand.edge? = [])
    (hfold : s.fold n kind operands = .ok s₁) (hempty : (s₁.finish i).stack = []) :
    (s₁.finish i).Ready (i + 1) := by
  have hread₁ := hread.fold hfold (Or.inr (Or.inr hedges))
  rcases hs.fold hread hfold with ⟨hs₁, hopen⟩ | htorn
  · obtain ⟨t, rest, hstack, hblock, rfl⟩ : ∃ t rest, s₁.stack = t :: rest ∧
        t.block = s₁.block ∧ t.kind = kind := by
      obtain ⟨-, rfl⟩ := fold_cases hfold
      exact ⟨_, _, rfl, rfl, rfl⟩
    obtain ⟨hs₂, -, hpush⟩ := hs₁.finish hread₁ hstack hblock (Or.inr (Or.inr hopen)) (by
      intro _
      rwa [Importer.finish, hstack] at hempty)
    have hsame : (s₁.finish i).block = s₁.block := by
      rw [Importer.finish, hstack]
    refine Or.inl ⟨hs₂, ?_⟩
    rw [hpush, hsame]
    exact hopen.push hkind
  · exact Or.inr (hread₁.torn_finish htorn i)

/-- That a store is listed plays no part. -/
theorem noteStore {s : Importer} (hs : (s.finish i).Ready (i + 1)) :
    ((s.noteStore i).finish i).Ready (i + 1) := by
  obtain ⟨graph, first, block, stack, start, stores⟩ := s
  cases stack with
  | nil => exact hs
  | cons t rest => exact hs.imp_left fun h => ⟨⟨h.1.ended, h.1.arrangedUpTo, h.1.start_le⟩, h.2⟩

/-- Reading an instruction keeps statements in order, or cuts a block in its middle. -/
theorem step {instr : Instr} (hread : s.Read code) (hs : s.Ready i)
    (h : s.step i isLast instr = .ok s') :
    s'.InOrderOrTorn (i + 1) ∧ (isLast = false → s'.Ready (i + 1)) := by
  have hliterals := Operand.edges_literals instr.operands
  have hready : ∀ {s'' : Importer}, s''.Ready (i + 1) →
      s''.InOrderOrTorn (i + 1) ∧ (isLast = false → s''.Ready (i + 1)) :=
    fun hs => ⟨hs.inOrderOrTorn, fun _ => hs⟩
  have hdepart : (s'.InOrder (i + 1) ∧ (isLast = false → Open s'.graph.span s'.block)) ∨
      s'.graph.Torn → s'.InOrderOrTorn (i + 1) ∧ (isLast = false → s'.Ready (i + 1)) := by
    rintro (⟨hs', hopen⟩ | htorn)
    · exact ⟨Or.inl hs', fun hlast => Or.inl ⟨hs', hopen hlast⟩⟩
    · exact ⟨Or.inr htorn, fun _ => Or.inr htorn⟩
  cases step_cases h with
  | value hmade hfold => exact hready (hs.fold hread hfold).succ
  | stLocal hop hfold hempty =>
      refine hready (hs.stay hread rfl hliterals hfold ?_).noteStore
      obtain ⟨-, rfl⟩ := fold_cases hfold
      exact hempty
  | pop hop hfold hempty => exact hready (hs.stay hread rfl rfl hfold hempty)
  | jmp hop hedge hfold _ hleave =>
      have hread₁ := hread.edgeTo hedge
      have hs₁ := hs.inOrderOrTorn.edgeTo hread hedge
      exact hdepart ((hs₁.newEdge hread₁ _).depart (hread₁.newEdge _) (Or.inl rfl) (by simp)
        (Or.inl rfl) hfold hleave)
  | @branch yes no _ _ _ _ _ hop hyes hno hfold _ hleave =>
      have hread₁ := hread.edgeTo hyes
      have hread₂ := hread₁.edgeTo hno
      have hs₂ := (hs.inOrderOrTorn.edgeTo hread hyes).edgeTo hread₁ hno
      have hs₃ := (hs₂.newEdge hread₂ yes).newEdge (hread₂.newEdge yes) no
      exact hdepart (hs₃.depart ((hread₂.newEdge yes).newEdge no) (Or.inr (Or.inl rfl)) (by simp)
        (Or.inr (Or.inl rfl)) hfold hleave)
  | ret hop hfold hleave =>
      rcases hs with ⟨hs, hopen⟩ | htorn
      · exact hdepart (InOrderOrTorn.depart hread (Or.inl hs) (Or.inr (Or.inr hopen)) (by simp)
          (Or.inr (Or.inr rfl)) hfold hleave)
      · have hread₁ := hread.fold hfold (Or.inr (Or.inr rfl))
        exact hdepart (Or.inr ((hread₁.finish i).torn_leave
          (hread₁.torn_finish (hread.torn_fold htorn hfold) i) hleave))
  | other hop => exact hready hs.succ

/-- Reading a whole program keeps statements in order, or cuts a block in its middle. -/
theorem run {instrs : List Instr} (hread : s.Read code) (hcode : code.drop i = instrs)
    (hs : s.Ready i) (h : s.run i instrs = .ok s') : ∃ k, s'.InOrderOrTorn k := by
  induction instrs generalizing i s with
  | nil =>
      injection h with h
      exact ⟨i, h ▸ hs.inOrderOrTorn⟩
  | cons instr rest ih =>
      obtain ⟨s₁, hstep, h⟩ := exists_of_bind_eq_ok h
      obtain ⟨hinstr, hdrop⟩ := drop_cases hcode
      have hread₁ := hread.step hinstr hstep
      obtain ⟨hs₁, hready⟩ := hs.step hread hstep
      cases rest with
      | nil =>
          injection h with h
          exact ⟨i + 1, h ▸ hs₁⟩
      | cons next rest => exact ih hread₁ hdrop (hready rfl) h

end Ready
end Importer

/-- In a program whose trees are reached once each, the statements are arranged. -/
theorem Program.import?_arranged {p : Program} {m : Imported} (h : p.import? = .ok m)
    (honce : ((m.ir.trees m.graph).map Tree.id).Nodup) :
    m.graph.Placed ∧ Arranged m.graph.span ∧ m.graph.Ended := by
  obtain ⟨s, n, hrun, -, hgraph, hir, -⟩ := Program.import?_cases h
  have hread := (Importer.Read.start p.instrs).run rfl hrun
  obtain ⟨k, hs | htorn⟩ := Importer.Ready.run (Importer.Read.start p.instrs) rfl
    (Or.inl Importer.InOrder.start) hrun
  · rw [hgraph]
    exact ⟨hread.placed, hs.arrangedUpTo.arranged, hs.ended⟩
  · rw [Ir.trees, hir, hgraph] at honce
    exact absurd honce (htorn.not_nodup hread.placed.grown.threaded.chained)

end LinearScan
