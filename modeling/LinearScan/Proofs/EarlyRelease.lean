import LinearScan.Proofs.Progress
import LinearScan.Proofs.Provenance

/-!
# Registers that are released early

A variable counts as read up to the end of the program.  It still loses its register early, at
a tree of a block, when a store to it comes before the next tree that reads it, and that tree
was read for the block.  The tree need not stand in the block, but the store does: it comes
before the block is left.  So the value that is dropped is one that nothing reads any more.
-/

namespace LinearScan

open Listing

theorem TreeKind.isValue_of_leaves {kind : TreeKind} (h : kind.leaves = true) :
    kind.isValue = false := by
  cases kind with
  | ret | branch | jmp => rfl
  | _ => cases h

namespace Graph

variable {g : Graph} {pending : List Tree} {n : Notes} {b c : BlockId} {t u v w z : Tree}
  {x y : Int × Tree}

/-! ## Places and offsets -/

theorem exists_entry (ht : t ∈ g.treesOf b) : ∃ x ∈ g.entries b, t ∈ x.2.postorder := by
  rw [treesOf_eq_flatMap_entries] at ht
  exact List.mem_flatMap.mp ht

theorem mem_treesFrom (hb : b ∈ g.blocksFrom 0) (ht : t ∈ g.treesOf b) : t ∈ g.treesFrom 0 :=
  List.mem_flatMap.mpr ⟨b, hb, ht⟩

section

variable (hg : g.Placed) (hn : n.Sorted g) (hb : b ∈ g.blocksFrom 0) (hc : c ∈ g.blocksFrom 0)
include hg hn hb hc

/-- Places rise from block to block. -/
theorem index_lt_of_offset_lt (hlt : (g.block b).offset < (g.block c).offset) (ht : t ∈ g.treesOf b)
    (hu : u ∈ g.treesOf c) : n.index t < n.index u := by
  obtain ⟨before, after, hsplit⟩ := List.append_of_mem hb
  have hrising := hg.rising
  rw [hsplit, Rising, List.pairwise_append] at hrising
  have hafter : c ∈ after := by
    rw [hsplit, List.mem_append, List.mem_cons] at hc
    rcases hc with hc | rfl | hc
    · have hgt := hrising.2.2 c hc b (by simp)
      omega
    · omega
    · exact hc
  rw [Notes.Sorted, treesFrom, hsplit, List.flatMap_append, List.flatMap_cons,
    List.pairwise_append, List.pairwise_append] at hn
  exact hn.2.1.2.2 t ht u (List.mem_flatMap.mpr ⟨c, hafter, hu⟩)

theorem offset_le_of_index_le (ht : t ∈ g.treesOf b) (hu : u ∈ g.treesOf c)
    (hle : n.index t ≤ n.index u) : (g.block b).offset ≤ (g.block c).offset := by
  by_contra hlt
  have hgt := index_lt_of_offset_lt hg hn hc hb (Int.not_le.mp hlt) hu ht
  omega

end

/-- Places rise from statement to statement of a block. -/
theorem index_lt_of_before (hn : n.Sorted g) (hb : b ∈ g.blocksFrom 0)
    {before after : List (Int × Tree)} (hsplit : g.entries b = before ++ x :: after)
    (hy : y ∈ after) (ht : t ∈ x.2.postorder) (hu : u ∈ y.2.postorder) :
    n.index t < n.index u := by
  obtain ⟨bs, cs, hblocks⟩ := List.append_of_mem hb
  rw [Notes.Sorted, treesFrom, hblocks, List.flatMap_append, List.flatMap_cons,
    List.pairwise_append, List.pairwise_append, treesOf_eq_flatMap_entries g b, hsplit,
    List.flatMap_append, List.flatMap_cons, List.pairwise_append, List.pairwise_append] at hn
  exact hn.2.1.1.2.1.2.2 t ht u (List.mem_flatMap.mpr ⟨y, hy, hu⟩)

/-- A tree that produces no value is a statement. -/
theorem Formed.eq_root (hg : g.Formed pending) (hx : x ∈ g.entries b) (ht : t ∈ x.2.postorder)
    (hkind : t.kind.isValue = false) : t = x.2 := by
  rcases Tree.eq_or_mem_subtrees ht with rfl | ⟨p, hp, htp⟩
  · rfl
  · have hpb : p ∈ g.treesOf b := by
      rw [treesOf_eq_flatMap_entries]
      exact List.mem_flatMap.mpr ⟨x, hx, hp⟩
    rw [hg.subtree_isValue hpb htp] at hkind
    cases hkind

/-- A tree that produces a value is no part of a jump. -/
theorem Formed.root_ne_jmp (hg : g.Formed pending) (hx : x ∈ g.entries b)
    (ht : t ∈ x.2.postorder) (hkind : t.kind ≠ .jmp) : x.2.kind ≠ .jmp := by
  intro hjmp
  have hmem : x.2 ∈ g.treesOf b := by
    rw [treesOf_eq_flatMap_entries]
    exact List.mem_flatMap.mpr ⟨x, hx, Tree.mem_postorder_self _⟩
  have hlength := hg.planted.arity_eq x.2 (hg.mem_allTrees hmem)
  rw [hjmp] at hlength
  rw [Tree.postorder_eq, List.length_eq_zero_iff.mp hlength] at ht
  exact hkind (List.mem_singleton.mp ht ▸ hjmp)

/-! ## Where a store stands -/

section Stores

variable (hg : g.Formed pending) (hplaced : g.Placed) (harranged : Arranged g.span)
  (hn : n.Sorted g)

include hg harranged hn

/-- A store comes before all trees that leave its block. -/
theorem index_lt_of_leaves (hb : b ∈ g.blocksFrom 0) (hw : w ∈ g.treesOf b)
    (hstore : w.kind = .stLocal) (hz : z ∈ g.treesOf b) (hleaves : z.kind.leaves = true) :
    n.index w < n.index z := by
  obtain ⟨y, hy, hwy⟩ := exists_entry hw
  obtain ⟨x, hx, hzx⟩ := exists_entry hz
  obtain rfl : w = y.2 := hg.eq_root hy hwy (by rw [hstore]; rfl)
  obtain rfl : z = x.2 := hg.eq_root hx hzx (TreeKind.isValue_of_leaves hleaves)
  obtain ⟨before, after, hsplit⟩ := List.append_of_mem hy
  rw [hsplit, List.mem_append, List.mem_cons] at hx
  rcases hx with hx | rfl | hx
  · -- Behind a tree that leaves the block there are no stores.
    have hclosed : (g.entries b).Pairwise _ := harranged.closed b
    rw [hsplit, List.pairwise_append] at hclosed
    rcases hclosed.2.2 x hx y (by simp) hleaves with hjmp | hbranch
    · rw [hstore] at hjmp
      cases hjmp
    · rw [hstore] at hbranch
      cases hbranch
  · rw [hstore] at hleaves
    cases hleaves
  · exact index_lt_of_before hn hb hsplit hx hwy hzx

include hplaced

/-- From the block `b` on, a store that comes before a tree that was read for `b` stands in `b`
itself. -/
theorem store_mem_treesOf
    (hhome : ∀ {c x}, c ∈ g.blocksFrom 0 → x ∈ g.entries c → x.2 = w → w.block = c)
    (hb : b ∈ g.blocksFrom 0) (hv : v ∈ g.treesOf b) (hu : u ∈ g.treesFrom 0)
    (hukind : u.kind ≠ .jmp) (hublock : u.block = b) (hw : w ∈ g.treesFrom 0)
    (hstore : w.kind = .stLocal) (hvw : n.index v ≤ n.index w) (hwu : n.index w < n.index u) :
    w ∈ g.treesOf b := by
  obtain ⟨c, hc, hwc⟩ := List.mem_flatMap.mp hw
  obtain ⟨d, hd, hud⟩ := List.mem_flatMap.mp hu
  obtain ⟨y, hy, hwy⟩ := exists_entry hwc
  obtain ⟨x, hx, hux⟩ := exists_entry hud
  obtain rfl : w = y.2 := hg.eq_root hy hwy (by rw [hstore]; rfl)
  have hxkind := hg.root_ne_jmp hx hux hukind
  have hxstands : Stands g.span x := ⟨hxkind, d, hx⟩
  have hystore : StandsStore g.span y := ⟨hstore, c, hy⟩
  have hbc := offset_le_of_index_le hplaced hn hb hc hv hwc hvw
  have hcd := offset_le_of_index_le hplaced hn hc hd hwc hud (Nat.le_of_lt hwu)
  have hdx : (g.block d).offset ≤ x.1 := harranged.offset_le (b := d) hx hxkind
  have hcy := hhome hc hy rfl
  rcases Int.lt_trichotomy y.1 x.1 with hyx | hyx | hxy
  · -- The store was read first, so for no block behind `b`.
    have hle : (g.block y.2.block).offset ≤ (g.block u.block).offset :=
      harranged.store_offset_le hystore hxstands hyx u hux
    rw [hcy, hublock] at hle
    have hlt := (hplaced.grown.threaded.chained.mem_iff c).mp hc
    obtain rfl := hplaced.offset_inj hlt ((hplaced.grown.threaded.chained.mem_iff b).mp hb)
      (Int.le_antisymm hle hbc)
    exact hwc
  · -- The store would be the statement to which the other tree belongs.
    obtain rfl := harranged.eq_of_offset_eq hystore.stands hxstands hyx
    have hle := hn.index_le_of_mem_postorder hw hux
    omega
  · -- The store would be behind the other tree.
    exfalso
    rcases harranged.lt_offset hxstands hystore.stands hxy with hblock | hlt
    · rw [hcy] at hblock
      by_cases hdc : d = c
      · subst hdc
        obtain ⟨before, after, hsplit⟩ := List.append_of_mem hx
        have hsorted : (g.entries d).Pairwise _ := harranged.sorted d
        rw [hsplit, List.pairwise_append] at hsorted
        rw [hsplit, List.mem_append, List.mem_cons] at hy
        rcases hy with hy | rfl | hy
        · have hlt := hsorted.2.2 y hy x (by simp) hystore.stands.1 hxkind
          omega
        · omega
        · have hlt := index_lt_of_before hn hd hsplit hy hux hwy
          omega
      · -- The other statement was cut off, and was the last one then.
        have hsingle : g.entries d = [x] :=
          (harranged.home (b := d) hx).resolve_left fun heq => hdc (heq.symm.trans hblock)
        have hle := harranged.store_le_last (b := d) (x := x) (by
          show (g.entries d).getLast? = some x
          rw [hsingle]
          rfl) hxkind hystore (hcy.trans hblock.symm)
        omega
    · have hlt' : x.1 < (g.block y.2.block).offset := hlt
      rw [hcy] at hlt'
      omega

end Stores

end Graph

/-! ## Stores do not end blocks -/

theorem edges_of_eachEdge {σ : Type} {visit : EdgeId → BlockId → EStateM Fault σ Unit}
    {operands : List Operand} {s s' : σ} (h : eachEdge visit operands s = .ok () s') :
    ∀ o ∈ operands, ∃ e target, o = .edge e target := by
  induction operands generalizing s with
  | nil => simp
  | cons o operands ih =>
      cases o with
      | edge e target =>
          obtain ⟨⟨⟩, s₁, -, hrest⟩ := exists_of_bind_apply_eq_ok h
          intro o ho
          rcases List.mem_cons.mp ho with rfl | ho
          · exact ⟨e, target, rfl⟩
          · exact ih hrest o ho
      | literal l => cases h
      | operator op => cases h

/-- Predecessors can only be noted when the tree at the end of each block has nothing but edges
for operands. -/
theorem edges_of_notePredecessors {g : Graph} {bs : List BlockId} {n n' : Notes}
    (h : Ir.notePredecessors g bs n = .ok () n') :
    ∀ b ∈ bs, ∃ t, g.terminator b = .ok t ∧ ∀ o ∈ t.operands, ∃ e target, o = .edge e target := by
  induction bs generalizing n with
  | nil => simp
  | cons b bs ih =>
      obtain ⟨⟨⟩, n₁, hfirst, hrest⟩ := exists_of_bind_apply_eq_ok h
      intro c hc
      rcases List.mem_cons.mp hc with rfl | hc
      · obtain ⟨old, n₂, -, hexit⟩ := exists_of_bind_apply_eq_ok hfirst
        cases hlast : g.terminator c with
        | error fault =>
            simp only [Ir.eachExit, hlast] at hexit
            cases hexit
        | ok t =>
            simp only [Ir.eachExit, hlast] at hexit
            refine ⟨t, rfl, fun o ho => edges_of_eachEdge hexit o ?_⟩
            exact List.mem_append_left _ ho
      · exact ih hrest c hc

/-- In a program whose trees are reached once each, a store stands in the block that it was
read for. -/
theorem Program.import?_store_block {p : Program} {m : Imported} (h : p.import? = .ok m)
    (honce : ((m.ir.trees m.graph).map Tree.id).Nodup) {w : Tree} {i : Nat}
    (hw : w.Names .stLocal i) {b : BlockId} {x : Int × Tree} (hb : b ∈ m.graph.blocksFrom 0)
    (hx : x ∈ m.graph.entries b) (hxw : x.2 = w) : w.block = b := by
  obtain ⟨-, harranged, hended⟩ := Program.import?_arranged h honce
  obtain ⟨s, n, -, -, hgraph, -, hpred, -⟩ := Program.import?_cases h
  subst hxw
  refine (harranged.home (b := b) hx).resolve_right ?_
  -- A store that was cut off would end its block.
  intro hsingle
  have hentries : m.graph.entries b = [x] := hsingle
  obtain ⟨r, rest, hstmts, rfl, hrest⟩ := List.map_eq_cons_iff.mp hentries
  obtain rfl := List.map_eq_nil_iff.mp hrest
  have hterminator : m.graph.terminator b = .ok (m.graph.stmt r).tree := by
    rw [Graph.terminator, hended b, hstmts]
    rfl
  obtain ⟨t, ht, hedges⟩ := edges_of_notePredecessors hpred b (hgraph ▸ hb)
  rw [← hgraph, hterminator] at ht
  obtain rfl := Except.ok.inj ht
  obtain ⟨o, ho, hliteral⟩ := Option.bind_eq_some_iff.mp hw.2
  obtain ⟨e, target, rfl⟩ := hedges o (List.mem_of_head? ho)
  cases hliteral

/-! ## Releases -/

open Alloc Allocator

/-- The states in which the scan of a visit releases registers: at its start, and, if results
may go into the registers of operands, once more when the operands are back. -/
def Visit.releases (g : Graph) (v : Visit) : List Allocator :=
  { v.before with tree := some v.tree, reuse := false } ::
    match v.before.reuse, recover g v.tree v.before with
    | true, .ok _ s => [{ s with reuse := true }]
    | _, _ => []

/-- Registers are released in an orderly state that keeps what the visit began with. -/
theorem Visit.releases_spec {g : Graph} {pending past before : List Tree} {s₀ s : Allocator}
    {N : Prop} {v : Visit} (hg : g.Formed pending) (hv : Begun g s₀ N past before v)
    (hs : s ∈ v.releases g) : s.Orderly g ∧ v.before.Extends s := by
  obtain ⟨future, htrees⟩ := hv.trees
  rcases List.mem_cons.mp hs with rfl | hs
  · exact ⟨hv.rested.orderly.turn (some v.tree) false, .of_notes_eq rfl rfl rfl rfl⟩
  · split at hs
    · next s₁ hreuse hrecover =>
        rw [List.mem_singleton.mp hs]
        obtain ⟨back, hserving⟩ :=
          (recover_serving hg htrees hv.rested hv.subtrees_reg).1 s₁ hrecover
        obtain ⟨rs, hmoves⟩ := recover_moves hrecover
        exact ⟨hserving.orderly.turn s₁.tree true,
          hmoves.extends.trans (.of_notes_eq rfl rfl rfl rfl)⟩
    · cases hs

/-- At the tree `y` the value of the variable `k` is not needed any more: `use` is the first
tree from `y` on that reads the variable, and `write` stores to it before, in the block `b`,
and before control leaves the block. -/
structure Graph.Overwrites (g : Graph) (n : Notes) (b : BlockId) (y : Tree) (k : Nat)
    (use write : Tree) : Prop where
  use_mem : use ∈ g.treesFrom 0
  use_names : use.Names .ldLocal k
  use_le : ∀ z ∈ g.treesFrom 0, z.Names .ldLocal k → n.index y ≤ n.index z →
    n.index use ≤ n.index z
  write_mem : write ∈ g.treesOf b
  write_names : write.Names .stLocal k
  le_write : n.index y ≤ n.index write
  write_lt : n.index write < n.index use
  leaves_gt : ∀ z ∈ g.treesOf b, z.kind.leaves = true → n.index write < n.index z

/-- A variable that is no longer needed is stored to before it is read again. -/
theorem Program.overwrites_of_expired {p : Program} {m : Imported} (h : p.import? = .ok m)
    (honce : ((m.ir.trees m.graph).map Tree.id).Nodup) {s : Allocator} {b : BlockId} {y : Tree}
    {k : Nat} (hcharted : s.Charted m.graph)
    (hindex : ∀ t, s.notes.index t = m.notes.index t) (hb : b ∈ m.graph.blocksFrom 0)
    (hblock : s.block = some b) (hy : y ∈ m.graph.treesOf b) (hk : k < s.slots.length)
    (hexpired : s.expired (s.notes.index y) k = true) :
    ∃ use write, m.graph.Overwrites m.notes b y k use write := by
  obtain ⟨⟨pending, hg⟩, -, -⟩ := Program.import?_formed h
  obtain ⟨hplaced, harranged, -⟩ := Program.import?_arranged h honce
  have hsorted := Program.import?_sorted h honce
  obtain ⟨use, huse, write, hwrite, hload, hstore, hhome, hle, hlt, hfirst⟩ :=
    hcharted.exists_of_expired (hsorted.congr hindex) (Graph.mem_treesFrom hb hy) hk hexpired
  simp only [hindex] at hle hlt hfirst
  obtain rfl : use.block = b := Option.some.inj (hhome.symm.trans hblock)
  have hmem := Graph.store_mem_treesOf hg hplaced harranged hsorted
    (Program.import?_store_block h honce hstore) hb hy huse (by rw [hload.1]; decide) rfl hwrite
    hstore.1 hle hlt
  exact ⟨use, write, huse, hload, hfirst, hmem, hstore, hle, hlt, fun z =>
    Graph.index_lt_of_leaves hg harranged hsorted hb hmem hstore.1⟩

/-- Registers can always be released, and a variable that loses its register there is stored to
in the same block before it is read again. -/
theorem Program.release_drops_overwritten {p : Program} {m : Imported} (h : p.import? = .ok m)
    (honce : ((m.ir.trees m.graph).map Tree.id).Nodup)
    (hnamed : m.graph.NamesVariables p.locals.toNat) (settings : Settings) :
    ∀ v ∈ p.visits settings, ∀ s ∈ v.releases m.graph,
      ∃ s', release v.tree s = .ok () s' ∧
        ∀ i ∈ s.active, (s.interval i).owner.isTemp = false → i ∉ s'.active →
          ∃ b ∈ m.ir.blocks m.graph, s.block = some b ∧ v.tree ∈ m.graph.treesOf b ∧
            ∃ k : Nat, (s.interval i).owner = .slot k ∧
              ∃ use write, m.graph.Overwrites m.notes b v.tree k use write := by
  obtain ⟨⟨pending, hg⟩, hfresh, hfirst⟩ := Program.import?_formed h
  intro v hv s hs
  obtain ⟨s₀, past, before, hsurvey, hbegun⟩ :=
    Program.visits_begun h honce (N := False) False.elim v hv
  obtain ⟨horderly, hextends⟩ := Visit.releases_spec hg hbegun hs
  have hcontinues := hbegun.continues.trans hextends.toContinues
  obtain ⟨hhas, hlisted⟩ := survey_hasScanned hfresh hsurvey
  have hindex : ∀ t, s.notes.index t = m.notes.index t := by
    intro t
    rw [hcontinues.index_eq, Notes.index, Notes.tree, hlisted.trees_eq]
    rfl
  obtain ⟨⟨⟩, s', hrelease⟩ := returns_release (t := v.tree) horderly
  refine ⟨s', hrelease, ?_⟩
  intro i hi howner hgone
  -- The variables come first among the intervals.
  have hslot : i < s.slots.length := by
    by_contra hle
    rw [(horderly.toOwned.isTemp_iff (horderly.active_lt i hi)).mpr (Nat.not_lt.mp hle)] at howner
    cases howner
  have hexpired : s.expired (s.notes.index v.tree) i = true := by
    by_contra hnot
    obtain ⟨kept, s₁, hsifted, rfl⟩ := release_cases hrelease
    refine hgone ?_
    rw [hsifted.kept_eq]
    exact List.mem_filter.mpr ⟨hi, by simpa using hnot⟩
  obtain ⟨b, hb, hblock, after, htrees⟩ := hbegun.block
  have hmem : v.tree ∈ m.graph.treesOf b := by simp [htrees]
  have hblock' : s.block = some b := hextends.block_eq.trans hblock
  rw [Ir.blocks, hfirst]
  have hcharted := (Program.survey_charted h hnamed hsurvey).1.continues
    hhas.orderly.slots_le hcontinues
  exact ⟨b, hb, hblock', hmem, i, horderly.owner_slot i hslot,
    Program.overwrites_of_expired h honce hcharted hindex hb hblock' hmem hslot hexpired⟩

/-- A variable is stored to twice and then read.  The jump at the end cuts off the statement
that reads it. -/
def Samples.readCutOff : Program where
  locals := 1
  instrs :=
    [instr .push [1], instr .stLocal [0], instr .push [2], instr .stLocal [0], instr .ldLocal [0],
      instr .pop, instr .jmp [4]]

/-- Between the two stores the variable loses its register, though the tree that reads it next
stands in another block by then. -/
theorem Program.release_drops_overwritten_readCutOff :
    (∀ instr ∈ Samples.readCutOff.instrs, instr.inRange Samples.readCutOff.locals = true) ∧
      ∃ m, Samples.readCutOff.import? = .ok m ∧ ((m.ir.trees m.graph).map Tree.id).Nodup ∧
        ∃ v ∈ Samples.readCutOff.visits { registers := 2 }, ∃ s ∈ v.releases m.graph,
          ∃ s', release v.tree s = .ok () s' ∧ 0 ∈ s.active ∧
            (s.interval 0).owner.isTemp = false ∧ 0 ∉ s'.active ∧
            ∃ b ∈ m.ir.blocks m.graph, s.block = some b ∧ v.tree ∈ m.graph.treesOf b ∧
              ∃ k : Nat, (s.interval 0).owner = .slot k ∧
                ∃ use write, m.graph.Overwrites m.notes b v.tree k use write := by
  have hrange : ∀ instr ∈ Samples.readCutOff.instrs,
      instr.inRange Samples.readCutOff.locals = true := by decide +kernel
  obtain ⟨m, himport, honce, v, hv, s, hs, hactive, howner, hgone⟩ :
      ∃ m, Samples.readCutOff.import? = .ok m ∧ ((m.ir.trees m.graph).map Tree.id).Nodup ∧
        ∃ v ∈ Samples.readCutOff.visits { registers := 2 }, ∃ s ∈ v.releases m.graph,
          0 ∈ s.active ∧ (s.interval 0).owner.isTemp = false ∧
            0 ∉ (ending (release v.tree s)).2.active := by
    decide +kernel
  obtain ⟨s', hrelease, hdropped⟩ := Program.release_drops_overwritten himport honce
    (Program.import?_namesVariables hrange himport) { registers := 2 } v hv s hs
  rw [hrelease] at hgone
  exact ⟨hrange, m, himport, honce, v, hv, s, hs, s', hrelease, hactive, howner, hgone,
    hdropped 0 hactive howner hgone⟩

end LinearScan
