import LinearScan.Proofs.Spans
import LinearScan.Proofs.Targets

/-!
# Order and look-up in a list of blocks

Blocks are looked up by offset and made where there is none, while statements are appended at
any offsets.  Whatever was done before, cuts that lost statements and look-ups that failed
included, the blocks stand in the order of their offsets.  A look-up gives the block at its
offset, put in where it belongs, or it fails and changes nothing; which of the two happens
depends on the statements of one block only, the last that does not start behind the offset.
-/

namespace LinearScan
namespace Graph

variable {g g' : Graph} {b c d : BlockId} {offset : Int} {fault : Fault}

/-- The lists of blocks that can be built from one empty block at offset zero.  Trees are made
and appended to blocks at any offsets, and blocks are looked up at offsets from zero on, where
a look-up may fail. -/
inductive Built : Graph → Prop where
  | fresh : Built (({} : Graph).newChain)
  | edge {g : Graph} (hg : Built g) (target : BlockId) : Built (g.newEdge target).2
  | tree {g : Graph} (hg : Built g) (kind : TreeKind) (operands : List Operand) (b : BlockId)
      (ts : List Tree) : Built (g.newTree kind operands b ts).2
  | append {g : Graph} (hg : Built g) (b : BlockId) (offset : Int) (t : Tree) :
      Built (g.append b offset t)
  | found {g g' : Graph} {b : BlockId} {offset : Int} (hg : Built g) (hoffset : 0 ≤ offset)
      (h : blockAt 0 offset g = .ok b g') : Built g'
  | failed {g g' : Graph} {fault : Fault} {offset : Int} (hg : Built g) (hoffset : 0 ≤ offset)
      (h : blockAt 0 offset g = .error fault g') : Built g'

/-- The offsets of the blocks, in the order of the list. -/
def offsets (g : Graph) : List Int :=
  (g.blocksFrom 0).map fun b => (g.block b).offset

/-- The offset lies behind the start of `b`, and no other block starts in between. -/
def InRange (g : Graph) (b : BlockId) (offset : Int) : Prop :=
  b ∈ g.blocksFrom 0 ∧ (g.block b).offset < offset ∧
    ∀ c ∈ g.blocksFrom 0, (g.block b).offset < (g.block c).offset → offset < (g.block c).offset

/-- Why no block can be had at an offset: it lies in the range of a block without statements, or
the first statement there that does not start before it starts behind it. -/
inductive Refuses (g : Graph) (offset : Int) : Fault → Prop where
  | empty {b : BlockId} (hb : g.InRange b offset) (hstmts : g.stmtsOf b = []) :
      Refuses g offset .emptyBlock
  | between {b : BlockId} {s : StmtId} {before after : List StmtId} (hb : g.InRange b offset)
      (hstmts : g.stmtsOf b = before ++ s :: after)
      (hbefore : ∀ r ∈ before, (g.stmt r).offset < offset) (hs : offset < (g.stmt s).offset) :
      Refuses g offset .betweenStatements

/-! ## The order of the blocks -/

theorem Built.grown (hg : g.Built) : g.Grown := by
  induction hg with
  | fresh => exact .fresh
  | edge _ target ih => exact ih.edge target
  | tree _ kind operands b ts ih => exact ih.tree kind operands b ts
  | append _ b offset t ih => exact ih.append b offset t
  | found _ _ h ih => exact ih.lookup h
  | failed _ _ h ih => exact eq_of_blockAt_error h ▸ ih

/-- At offset zero a search finds the first block. -/
theorem Threaded.locate_zero (hg : g.Threaded) : g.locate 0 0 = .ok (.existing 0) := by
  refine locate_of_offset_eq ?_ hg.zero_offset
  cases (g.blocksFrom 0).tail with
  | nil => rfl
  | cons c rest => rw [landing, hg.zero_offset, if_neg fun h => Int.lt_irrefl 0 h.1]

/-- Only at a positive offset can a search end without finding a block. -/
theorem Threaded.offset_pos (hg : g.Threaded) (hoffset : 0 ≤ offset) {place : Landing}
    (h : g.locate 0 offset = .ok place) (hplace : ∀ b, place ≠ .existing b) : 0 < offset := by
  rcases Int.lt_or_eq_of_le hoffset with hlt | rfl
  · exact hlt
  · rw [hg.locate_zero] at h
    injection h with h
    exact absurd h.symm (hplace 0)

/-- What a look-up that returned has done to the offsets: nothing, if it found a block. -/
theorem blockAt_offset_cases (h : blockAt 0 offset g = .ok b g') :
    (g.locate 0 offset = .ok (.existing b) ∧ g' = g) ∨
      (∃ place, g.locate 0 offset = .ok place ∧ ∀ c, place ≠ .existing c) ∧
        g'.blockCount = g.blockCount + 1 ∧
        ∀ c, (g'.block c).offset = if c = g.blockCount then offset else (g.block c).offset := by
  rcases blockAt_cases h with hfound | ⟨d, hplace, -, rfl⟩ | ⟨d, s, hplace, -, rfl⟩
  · exact Or.inl hfound
  · refine Or.inr ⟨⟨_, hplace, by simp⟩, g.insertBehind_blockCount d offset, ?_⟩
    exact fun c => g.insertBehind_offset d c offset
  · refine Or.inr ⟨⟨_, hplace, by simp⟩, g.split_blockCount d s offset, ?_⟩
    exact fun c => (g.split_offset d c s offset).trans (g.insertBehind_offset d c offset)

/-- Only the first block starts at offset zero. -/
theorem Built.block_pos (hg : g.Built) :
    ∀ b : Nat, b < g.blockCount → b ≠ 0 → 0 < (g.block b).offset := by
  induction hg with
  | fresh =>
      intro b hb hne
      exact absurd (Nat.lt_one_iff.mp hb) hne
  | edge _ target ih => exact ih
  | tree _ kind operands b ts ih => exact ih
  | append _ c offset t ih =>
      intro b hb hne
      rw [append_blockCount] at hb
      rw [append_block]
      split <;> exact ih b hb hne
  | found hg hoffset h ih =>
      intro b hb hne
      rcases blockAt_offset_cases h with ⟨-, rfl⟩ | ⟨⟨place, hplace, hnew⟩, hcount, hblock⟩
      · exact ih b hb hne
      · rw [hcount] at hb
        rw [hblock]
        split
        · exact hg.grown.threaded.offset_pos hoffset hplace hnew
        · next hold => exact ih b (Nat.lt_of_le_of_ne (Nat.le_of_lt_succ hb) hold) hne
  | failed _ _ h ih => exact eq_of_blockAt_error h ▸ ih

theorem Built.rising (hg : g.Built) : g.Rising (g.blocksFrom 0) :=
  hg.grown.threaded.rising hg.block_pos

/-! ## Where a look-up lands -/

/-- A block that starts in front of `offset`, with all others that start behind it starting
behind `offset`, splits the list. -/
theorem InRange.exists_split (hb : g.InRange b offset)
    (hrising : g.Rising (g.blocksFrom 0)) :
    ∃ before after, g.blocksFrom 0 = before ++ b :: after ∧
      (∀ c ∈ before ++ [b], (g.block c).offset < offset) ∧
      ∀ c ∈ after, offset < (g.block c).offset := by
  obtain ⟨hmem, hlt, hnext⟩ := hb
  obtain ⟨before, after, hsplit⟩ := List.append_of_mem hmem
  rw [Rising, hsplit, List.pairwise_append, List.pairwise_cons] at hrising
  obtain ⟨-, ⟨hafter, -⟩, hbefore⟩ := hrising
  refine ⟨before, after, hsplit, ?_, ?_⟩
  · intro c hc
    rcases List.mem_append.mp hc with hc | hc
    · exact Int.lt_trans (hbefore c hc b (by simp)) hlt
    · rwa [List.mem_singleton.mp hc]
  · intro c hc
    exact hnext c (by simp [hsplit, hc]) (hafter c hc)

section Range

variable (hg : g.Threaded) (hrising : g.Rising (g.blocksFrom 0))

include hg hrising

theorem InRange.landing_eq (hb : g.InRange b offset) :
    g.landing offset 0 (g.blocksFrom 0).tail = b := by
  obtain ⟨before, after, hsplit, hbefore, hafter⟩ := hb.exists_split hrising
  exact hg.landing_eq hsplit hbefore hafter

/-- A search lands on the block at the offset, or else in the block in whose range it lies. -/
theorem inRange_landing (hoffset : 0 ≤ offset)
    (hne : (g.block (g.landing offset 0 (g.blocksFrom 0).tail)).offset ≠ offset) :
    g.InRange (g.landing offset 0 (g.blocksFrom 0).tail) offset := by
  have hrising' := hrising
  rw [← hg.cons_tail] at hrising'
  obtain ⟨before, after, hsplit, hle, hafter⟩ :=
    landing_spec hrising' (hg.zero_offset.symm ▸ hoffset)
  rw [hg.cons_tail] at hsplit
  generalize g.landing offset 0 (g.blocksFrom 0).tail = d at *
  refine ⟨by simp [hsplit], by omega, ?_⟩
  intro c hc hlt
  rw [hsplit] at hc
  rcases List.mem_append.mp hc with hc | hc
  · rw [Rising, hsplit] at hrising
    have hcd := (List.pairwise_append.mp hrising).2.2 c hc d (by simp)
    omega
  · rcases List.mem_cons.mp hc with rfl | hc
    · exact absurd hlt (Int.lt_irrefl _)
    · exact hafter c hc

/-- The block at an offset is found there, and nothing changes. -/
theorem blockAt_of_offset_eq (hoffset : 0 ≤ offset) (hb : b ∈ g.blocksFrom 0)
    (heq : (g.block b).offset = offset) : blockAt 0 offset g = .ok b g := by
  have hfound : (g.block (g.landing offset 0 (g.blocksFrom 0).tail)).offset = offset := by
    by_contra hne
    obtain ⟨-, hlt, hnext⟩ := inRange_landing hg hrising hoffset hne
    have hpast := hnext b hb (heq.symm ▸ hlt)
    omega
  have hmem : g.landing offset 0 (g.blocksFrom 0).tail ∈ g.blocksFrom 0 := by
    have hmem := g.landing_mem offset 0 (g.blocksFrom 0).tail
    rwa [hg.cons_tail] at hmem
  have hlanding := hrising.eq_of_offset_eq hmem hb (hfound.trans heq.symm)
  rw [blockAt_apply, locate_of_offset_eq hlanding heq]

/-- A search fails if and only if there is a reason to refuse the offset. -/
theorem locate_eq_error_iff (hoffset : 0 ≤ offset) :
    g.locate 0 offset = .error fault ↔ g.Refuses offset fault := by
  constructor
  · intro h
    have hrange := inRange_landing hg hrising hoffset
    simp only [locate] at h
    generalize g.landing offset 0 (g.blocksFrom 0).tail = d at *
    split at h
    · cases h
    · next hne =>
        split at h
        · next hfirst =>
            injection h with h
            subst h
            exact .empty (hrange hne) (stmtsOf_eq_nil hfirst)
        · split at h
          · cases h
          · next s rest hdrop =>
              split at h
              · next hs =>
                  injection h with h
                  subst h
                  have hsplit := List.takeWhile_append_dropWhile
                    (p := fun s => decide ((g.stmt s).offset < offset)) (l := g.stmtsOf d)
                  rw [hdrop] at hsplit
                  refine .between (hrange hne) hsplit.symm ?_ hs
                  intro r hr
                  simpa using List.mem_takeWhile_imp hr
              · cases h
  · intro h
    cases h with
    | @empty b hb hstmts =>
        have hfirst := (entries_eq_nil_iff (b := b) hg.linked).mp (by rw [entries, hstmts]; rfl)
        exact locate_of_first_eq_none (hb.landing_eq hg hrising) (Int.ne_of_lt hb.2.1) hfirst
    | @between b s before after hb hstmts hbefore hs =>
        have hfirst : (g.block b).first ≠ none := by
          intro hnone
          rw [stmtsOf_eq_nil hnone] at hstmts
          simp at hstmts
        have hdrop : (g.stmtsOf b).dropWhile (fun s => (g.stmt s).offset < offset) =
            s :: after := by
          rw [hstmts, List.dropWhile_append_of_pos fun r hr => decide_eq_true (hbefore r hr),
            List.dropWhile_cons_of_neg]
          simpa using Int.le_of_lt hs
        simp only [locate, hb.landing_eq hg hrising, if_neg (Int.ne_of_lt hb.2.1), if_neg hfirst,
          hdrop, if_pos hs]

end Range

/-! ## What a look-up does -/

theorem Threaded.mem_offsets (hg : g.Threaded) {x : Int} :
    x ∈ g.offsets ↔ ∃ c : Nat, c < g.blockCount ∧ (g.block c).offset = x := by
  rw [offsets, List.mem_map]
  exact exists_congr fun c => and_congr_left fun _ => hg.chained.mem_iff c

/-- A look-up that returns adds its offset, if it is not there. -/
theorem Threaded.mem_offsets_lookup (hg : g.Threaded) (h : blockAt 0 offset g = .ok b g')
    {x : Int} : x ∈ g'.offsets ↔ x ∈ g.offsets ∨ x = offset := by
  rcases blockAt_offset_cases h with ⟨hplace, rfl⟩ | ⟨-, hcount, hblock⟩
  · obtain ⟨hlt, heq⟩ := locate_spec hg.chained hplace
    have hmem : offset ∈ g'.offsets := hg.mem_offsets.mpr ⟨b, hlt, heq⟩
    exact ⟨Or.inl, fun hx => hx.elim id fun hx => hx ▸ hmem⟩
  · rw [hg.mem_offsets, (hg.lookup h).mem_offsets, hcount]
    constructor
    · rintro ⟨c, hc, rfl⟩
      rw [hblock]
      split
      · exact Or.inr rfl
      · next hold => exact Or.inl ⟨c, Nat.lt_of_le_of_ne (Nat.le_of_lt_succ hc) hold, rfl⟩
    · rintro (⟨c, hc, rfl⟩ | rfl)
      · exact ⟨c, Nat.lt_succ_of_lt hc, by rw [hblock, if_neg (Nat.ne_of_lt hc)]⟩
      · exact ⟨g.blockCount, Nat.lt_succ_self _, by rw [hblock, if_pos rfl]⟩

/-- In every list that can be built the blocks stand in the order of their offsets, the first of
which is zero.  A look-up at an offset gives a block that starts there; the offsets of the list
are then the old ones and this one, and looking it up again gives the same block and changes
nothing.  Or it fails and has changed nothing, which happens exactly if there is a reason to
refuse the offset. -/
theorem Built.blockAt_spec (hg : g.Built) (hoffset : 0 ≤ offset) :
    g.offsets.head? = some 0 ∧ g.offsets.Pairwise (· < ·) ∧
      match blockAt 0 offset g with
      | .ok b g' =>
          b ∈ g'.blocksFrom 0 ∧ (g'.block b).offset = offset ∧
            (∀ x, x ∈ g'.offsets ↔ x ∈ g.offsets ∨ x = offset) ∧
            blockAt 0 offset g' = .ok b g' ∧ ∀ fault, ¬ g.Refuses offset fault
      | .error fault g' => g' = g ∧ g.Refuses offset fault := by
  have hthreaded := hg.grown.threaded
  refine ⟨?_, List.pairwise_map.mpr hg.rising, ?_⟩
  · rw [offsets, ← hthreaded.cons_tail, List.map_cons, List.head?_cons, hthreaded.zero_offset]
  · have hrefuses : ∀ fault, g.locate 0 offset = .error fault ↔ g.Refuses offset fault :=
      fun fault => locate_eq_error_iff hthreaded hg.rising hoffset
    cases hlook : blockAt 0 offset g with
    | ok b g' =>
        have hbuilt : g'.Built := hg.found hoffset hlook
        have hthreaded' := hbuilt.grown.threaded
        obtain ⟨hlt, heq⟩ := hg.grown.blockAt_offset hlook
        have hmem := (hthreaded'.chained.mem_iff b).mpr hlt
        refine ⟨hmem, heq, fun x => hthreaded.mem_offsets_lookup hlook, ?_, ?_⟩
        · exact blockAt_of_offset_eq hthreaded' hbuilt.rising hoffset hmem heq
        · intro fault hfault
          rw [blockAt_apply, (hrefuses fault).mpr hfault] at hlook
          cases hlook
    | error fault g' =>
        obtain rfl := eq_of_blockAt_error hlook
        refine ⟨rfl, (hrefuses fault).mp ?_⟩
        rw [blockAt_apply] at hlook
        cases hplace : g'.locate 0 offset with
        | error fault' =>
            rw [hplace] at hlook
            injection hlook with hlook
            rw [hlook]
        | ok place =>
            rw [hplace] at hlook
            cases place <;> cases hlook

end Graph

namespace Samples

/-- Three statements, cut at the second one: the last statement has got lost. -/
def cutEarly : Graph :=
  (discards [0, 2, 4]).split 0 1 2

theorem built_discards (offsets : List Int) : (discards offsets).Built := by
  refine List.foldlRecOn offsets addDiscard Graph.Built.fresh ?_
  intro g hg offset _
  exact .append (.tree (.tree hg _ _ _ _) _ _ _ _) _ _ _

theorem built_cutEarly : cutEarly.Built := by
  have hlook : Graph.blockAt 0 2 (discards [0, 2, 4]) = .ok 1 cutEarly := rfl
  exact (built_discards [0, 2, 4]).found (by decide) hlook

end Samples

/-- Behind the statements of a list that was cut badly a block is put in, and found again. -/
theorem Graph.Built.blockAt_spec_cutEarly :
    Samples.cutEarly.Built ∧ Samples.cutEarly.offsets = [0, 2] ∧
      ∃ g', Graph.blockAt 0 4 Samples.cutEarly = .ok 2 g' ∧ g'.offsets = [0, 2, 4] ∧
        (∀ x, x ∈ g'.offsets ↔ x ∈ Samples.cutEarly.offsets ∨ x = 4) ∧
        Graph.blockAt 0 4 g' = .ok 2 g' := by
  have hlook : Graph.blockAt 0 4 Samples.cutEarly =
      .ok 2 (Samples.cutEarly.insertBehind 1 4) := rfl
  have hoffset : (0 : Int) ≤ 4 := by decide
  have hspec := (Graph.Built.blockAt_spec Samples.built_cutEarly hoffset).2.2
  rw [hlook] at hspec
  obtain ⟨-, -, hmem, hagain, -⟩ := hspec
  exact ⟨Samples.built_cutEarly, by decide, _, hlook, by decide, hmem, hagain⟩

end LinearScan
