import LinearScan.Proofs.Imported
import LinearScan.Proofs.Machines
import Mathlib.Data.List.TakeWhile

/-!
# Where reading puts statements and blocks

A statement that is appended to a block stands at its end and in no other block.
When jumps lead only to the start of the program and behind instructions that leave a
block, a look-up never cuts a block: it finds a block that is there, or puts an empty
one in behind the current block.  `Layout` is what the chain of blocks then looks like
while a program is read: blocks that were left, the current block, and empty blocks
that were made early as targets, with offsets that rise.
-/

namespace LinearScan

namespace Graph

variable {g g' : Graph} {b c : BlockId}

/-! ## The statements of a block -/

theorem walkStmts_congr
    (hnext : ∀ s, (g'.stmt s).next = (g.stmt s).next) (fuel : Nat) (start : Option StmtId) :
    g'.walkStmts fuel start = g.walkStmts fuel start := by
  induction fuel generalizing start with
  | zero => rfl
  | succ fuel ih =>
      cases start with
      | none => rfl
      | some s => rw [walkStmts, walkStmts, hnext, ih]

section

variable (hstmt : ∀ s, g'.stmt s = g.stmt s) (hcount : g'.stmtCount = g.stmtCount)
  (hfirst : (g'.block b).first = (g.block b).first)
include hstmt hcount hfirst

/-- The statements of a block depend only on the links and on where the block starts. -/
theorem stmtsOf_congr : g'.stmtsOf b = g.stmtsOf b := by
  rw [stmtsOf, stmtsOf, hcount, hfirst]
  exact walkStmts_congr (fun s => congrArg Stmt.next (hstmt s)) _ _

theorem rootsOf_congr : g'.rootsOf b = g.rootsOf b := by
  simp only [rootsOf, stmtsOf_congr hstmt hcount hfirst, hstmt]

end

/-- `g'` has the blocks and the statements of `g`. -/
structure SameBlocks (g g' : Graph) : Prop where
  stmt_eq : ∀ s, g'.stmt s = g.stmt s
  stmtCount_eq : g'.stmtCount = g.stmtCount
  block_eq : ∀ b, g'.block b = g.block b
  blockCount_eq : g'.blockCount = g.blockCount

theorem sameBlocks_newTree
    (g : Graph) (kind : TreeKind) (operands : List Operand) (b : BlockId) (ts : List Tree) :
    g.SameBlocks (g.newTree kind operands b ts).2 where
  stmt_eq := g.newTree_stmt b kind operands ts
  stmtCount_eq := g.newTree_stmtCount b kind operands ts
  block_eq := g.newTree_block b kind operands ts
  blockCount_eq := g.newTree_blockCount b kind operands ts

theorem sameBlocks_newEdge (g : Graph) (target : BlockId) :
    g.SameBlocks (g.newEdge target).2 where
  stmt_eq := g.newEdge_stmt target
  stmtCount_eq := g.newEdge_stmtCount target
  block_eq := g.newEdge_block target
  blockCount_eq := g.newEdge_blockCount target

namespace SameBlocks

theorem stmtsOf_eq (h : g.SameBlocks g') (b : BlockId) : g'.stmtsOf b = g.stmtsOf b :=
  stmtsOf_congr h.stmt_eq h.stmtCount_eq (congrArg Block.first (h.block_eq b))

theorem rootsOf_eq (h : g.SameBlocks g') (b : BlockId) : g'.rootsOf b = g.rootsOf b :=
  rootsOf_congr h.stmt_eq h.stmtCount_eq (congrArg Block.first (h.block_eq b))

end SameBlocks

theorem stmtsOf_eq_nil (h : (g.block b).first = none) : g.stmtsOf b = [] := by
  rw [stmtsOf, h, walkStmts_none]

/-- Every block notes which of its statements is the last one. -/
def Ended (g : Graph) : Prop :=
  ∀ b, (g.block b).last = (g.stmtsOf b).getLast?

namespace Ended

/-- The last statement of one block is in no other block. -/
theorem not_mem_stmtsOf
    (he : g.Ended) (hg : g.Linked) {l : StmtId} (hl : (g.block b).last = some l) (hbc : c ≠ b) :
    l ∉ g.stmtsOf c := by
  intro hmem
  have hlast : (g.stmt l).next = none := by
    obtain ⟨before, hbefore⟩ := List.getLast?_eq_some_iff.mp ((he b).symm.trans hl)
    have hfollows := (hg.stmtsOf_spec b).1
    rw [hbefore] at hfollows
    exact hfollows.of_append
  obtain ⟨before, after, hsplit⟩ := List.append_of_mem hmem
  have hafter : after = [] := by
    have hfollows := (hg.stmtsOf_spec c).1
    rw [hsplit] at hfollows
    have hrest := hfollows.of_append
    rw [hlast] at hrest
    exact Follows.unique hrest rfl
  have hc : (g.block c).last = some l := by
    rw [he c, hsplit, hafter]
    simp
  exact hbc (hg.last_inj hc hl)

end Ended

theorem append_stmt_offset (g : Graph) (b : BlockId) (offset : Int) (t : Tree) (s : StmtId) :
    ((g.append b offset t).stmt s).offset =
      if s = g.stmtCount then offset else (g.stmt s).offset := by
  rw [append_stmt]
  grind

theorem append_stmt_tree (g : Graph) (b : BlockId) (offset : Int) (t : Tree) (s : StmtId) :
    ((g.append b offset t).stmt s).tree = if s = g.stmtCount then t else (g.stmt s).tree := by
  rw [append_stmt]
  grind

/-- A statement is appended to one block, at its end. -/
theorem stmtsOf_append
    (he : g.Ended) (hg : g.Linked) (b c : BlockId) (offset : Int) (t : Tree) :
    (g.append b offset t).stmtsOf c =
      if c = b then g.stmtsOf b ++ [g.stmtCount] else g.stmtsOf c := by
  have hspec := ((hg.append b offset t).stmtsOf_spec c).1
  have hkept : ∀ r, (g.block b).last ≠ some r → r < g.stmtCount →
      ((g.append b offset t).stmt r).next = (g.stmt r).next := by
    intro r hlast hr
    rw [append_stmt]
    simp only [hlast, if_false, Nat.ne_of_lt hr]
  have hnew : ((g.append b offset t).stmt g.stmtCount).next = none := by
    have hne : (g.block b).last ≠ some g.stmtCount :=
      fun h => Nat.lt_irrefl _ (hg.last_lt h)
    rw [append_stmt]
    simp only [hne, if_false, if_true]
  by_cases hcb : c = b
  · subst hcb
    rw [if_pos rfl]
    refine hspec.unique ?_
    rw [append_block]
    simp only [if_true]
    cases hlast : (g.block c).last with
    | none =>
        have hnil : g.stmtsOf c = [] := List.getLast?_eq_none_iff.mp ((he c).symm.trans hlast)
        rw [hnil]
        exact ⟨by simp, hnew⟩
    | some l =>
        obtain ⟨before, hbefore⟩ := List.getLast?_eq_some_iff.mp ((he c).symm.trans hlast)
        obtain ⟨hfollows, hsorted, hlt⟩ := hg.stmtsOf_spec c
        rw [hbefore] at hfollows hsorted hlt ⊢
        rw [List.append_assoc]
        refine hfollows.insert ?_ ?_ ?_
        · rw [append_stmt]
          simp only [hlast, if_true]
        · rw [hnew]
          exact hfollows.of_append.symm
        · intro r hr
          have hmem : r ∈ before := by simpa using hr
          have hrl : r < l := (List.pairwise_append.mp hsorted).2.2 r hmem l (by simp)
          refine hkept r ?_ (hlt r (List.mem_append_left _ hmem))
          rw [hlast]
          exact fun h => Nat.ne_of_gt hrl (Option.some.inj h)
  · rw [if_neg hcb]
    refine hspec.unique ?_
    rw [append_block, if_neg hcb]
    refine (hg.stmtsOf_spec c).1.congr ?_
    intro r hr
    exact hkept r (fun h => he.not_mem_stmtsOf hg h hcb hr) (hg.lt_of_mem_stmtsOf hr)

/-- The tree that is appended becomes the last statement of its block. -/
theorem rootsOf_append
    (he : g.Ended) (hg : g.Linked) (b c : BlockId) (offset : Int) (t : Tree) :
    (g.append b offset t).rootsOf c =
      if c = b then g.rootsOf b ++ [t] else g.rootsOf c := by
  have hold : ∀ d, (g.stmtsOf d).map (fun r => ((g.append b offset t).stmt r).tree) =
      g.rootsOf d := by
    intro d
    refine List.map_congr_left ?_
    intro r hr
    rw [append_stmt_tree, if_neg (Nat.ne_of_lt (hg.lt_of_mem_stmtsOf hr))]
  rw [rootsOf, stmtsOf_append he hg]
  by_cases hcb : c = b
  · rw [if_pos hcb, if_pos hcb, List.map_append, hold, List.map_singleton,
      append_stmt_tree, if_pos rfl]
  · rw [if_neg hcb, if_neg hcb, hold]

namespace Ended

theorem congr (he : g.Ended) (hsame : g.SameBlocks g') : g'.Ended := by
  intro b
  rw [hsame.block_eq, hsame.stmtsOf_eq]
  exact he b

theorem append
    (he : g.Ended) (hg : g.Linked) (b : BlockId) (offset : Int) (t : Tree) :
    (g.append b offset t).Ended := by
  intro c
  rw [stmtsOf_append he hg, append_block]
  by_cases hcb : c = b
  · simp [hcb]
  · simp only [if_neg hcb]
    exact he c

theorem insertBehind (he : g.Ended) (b : BlockId) (offset : Int) :
    (g.insertBehind b offset).Ended := by
  intro c
  rw [insertBehind_last]
  by_cases hc : c = g.blockCount
  · rw [if_pos hc, stmtsOf_eq_nil]
    · rfl
    · rw [insertBehind_first, if_pos hc]
  · rw [if_neg hc, stmtsOf_congr (g.insertBehind_stmt b offset) (g.insertBehind_stmtCount b offset)]
    · exact he c
    · rw [insertBehind_first, if_neg hc]

end Ended

end Graph

/-! ## Looking up a block -/

/-- Whether an instruction leaves the block it stands in. -/
def Opcode.leaves : Opcode → Bool
  | .jmp | .branch | .ret => true
  | _ => false

/-- Control may come to `offset`: it is the start of the program, or directly behind an
instruction that leaves its block. -/
def IsTarget (code : List Instr) (offset : Int) : Prop :=
  offset = 0 ∨
    0 < offset ∧ (code[(offset - 1).toNat]?).any (fun instr => instr.opcode.leaves) = true

instance (code : List Instr) (offset : Int) : Decidable (IsTarget code offset) :=
  inferInstanceAs (Decidable (_ ∨ _))

namespace IsTarget

variable {code : List Instr} {i : Nat} {instr : Instr}

theorem nonneg {offset : Int} (h : IsTarget code offset) : 0 ≤ offset := by
  rcases h with rfl | ⟨h, -⟩
  · exact Int.le_refl 0
  · exact Int.le_of_lt h

/-- Behind an instruction control may arrive if and only if the instruction leaves its
block. -/
theorem succ_iff (hinstr : code[i]? = some instr) :
    IsTarget code (i + 1 : Nat) ↔ instr.opcode.leaves = true := by
  have hprev : ((i + 1 : Nat) - 1 : Int).toNat = i := by omega
  rw [IsTarget, hprev, hinstr]
  constructor
  · rintro (h | ⟨-, h⟩)
    · omega
    · exact h
  · intro h
    exact Or.inr ⟨by omega, h⟩

end IsTarget

namespace Graph

variable {g g' : Graph}

/-- Along `bs` the offsets rise. -/
def Rising (g : Graph) (bs : List BlockId) : Prop :=
  bs.Pairwise fun b c => (g.block b).offset < (g.block c).offset

/-- Blocks along which the offsets rise are told apart by their offsets. -/
theorem Rising.eq_of_offset_eq
    {bs : List BlockId} (h : g.Rising bs) {b c : BlockId} (hb : b ∈ bs) (hc : c ∈ bs)
    (heq : (g.block b).offset = (g.block c).offset) :
    b = c := by
  induction bs with
  | nil => cases hb
  | cons d bs ih =>
      obtain ⟨hd, hbs⟩ := List.pairwise_cons.mp h
      rcases List.mem_cons.mp hb with hbd | hb'
      · rcases List.mem_cons.mp hc with hcd | hc'
        · rw [hbd, hcd]
        · have hless := hd c hc'
          rw [← hbd, heq] at hless
          exact absurd hless (Int.lt_irrefl _)
      · rcases List.mem_cons.mp hc with hcd | hc'
        · have hless := hd b hb'
          rw [← hcd, heq] at hless
          exact absurd hless (Int.lt_irrefl _)
        · exact ih hbs hb' hc'

/-- The block in whose range an offset lies is the last one that does not start behind
the offset. -/
theorem landing_spec
    {offset : Int} {b : BlockId} {rest : List BlockId}
    (hrising : g.Rising (b :: rest)) (hb : (g.block b).offset ≤ offset) :
    ∃ before after, b :: rest = before ++ g.landing offset b rest :: after ∧
      (g.block (g.landing offset b rest)).offset ≤ offset ∧
      ∀ c ∈ after, offset < (g.block c).offset := by
  induction rest generalizing b with
  | nil => exact ⟨[], [], rfl, hb, by simp⟩
  | cons c rest ih =>
      obtain ⟨hlt, hrest⟩ := List.pairwise_cons.mp hrising
      rw [landing]
      by_cases hgo : (g.block b).offset < offset ∧ (g.block c).offset ≤ offset
      · rw [if_pos hgo]
        obtain ⟨before, after, hsplit, hle, hafter⟩ := ih hrest hgo.2
        exact ⟨b :: before, after, by rw [hsplit, List.cons_append], hle, hafter⟩
      · rw [if_neg hgo]
        refine ⟨[], c :: rest, rfl, hb, ?_⟩
        intro d hd
        have hbc := hlt c (by simp)
        have hcd : (g.block c).offset ≤ (g.block d).offset := by
          rcases List.mem_cons.mp hd with rfl | hd
          · exact Int.le_refl _
          · exact Int.le_of_lt ((List.pairwise_cons.mp hrest).1 d hd)
        omega

/-- A search that finds no block at an offset ends behind the block it lands in, if all
statements of that block start before the offset. -/
theorem locate_cases
    {first : BlockId} {offset : Int} {place : Landing} {d : BlockId}
    (h : g.locate first offset = .ok place)
    (hd : g.landing offset first (g.blocksFrom first).tail = d)
    (hplaced : (g.block d).offset ≠ offset → ∀ s ∈ g.stmtsOf d, (g.stmt s).offset < offset) :
    ((g.block d).offset = offset ∧ place = .existing d) ∨
      ((g.block d).offset ≠ offset ∧ (g.block d).first ≠ none ∧ place = .behind d) := by
  simp only [locate, hd] at h
  by_cases hoffset : (g.block d).offset = offset
  · rw [if_pos hoffset] at h
    injection h with h
    exact Or.inl ⟨hoffset, h.symm⟩
  · rw [if_neg hoffset] at h
    by_cases hfirst : (g.block d).first = none
    · rw [if_pos hfirst] at h
      cases h
    · rw [if_neg hfirst] at h
      have hdrop : (g.stmtsOf d).dropWhile (fun s => (g.stmt s).offset < offset) = [] := by
        rw [List.dropWhile_eq_nil_iff]
        intro s hs
        exact decide_eq_true (hplaced hoffset s hs)
      rw [hdrop] at h
      injection h with h
      exact Or.inr ⟨hoffset, hfirst, h.symm⟩

end Graph

/-! ## The chain while a program is read -/

/-- The chain of blocks when the instruction at `i` is to be read: the blocks `done`
were left, `current` is the block that statements are appended to, and the blocks
`ahead` are there because something jumps to them. -/
structure Layout
    (code : List Instr) (i : Nat) (g : Graph) (done : List BlockId) (current : BlockId)
    (ahead : List BlockId) : Prop where
  linked : g.Linked
  ended : g.Ended
  chained : g.Chained 0
  chain : g.blocksFrom 0 = done ++ current :: ahead
  rising : g.Rising (done ++ current :: ahead)
  zero_offset : (g.block 0).offset = 0
  current_le : (g.block current).offset ≤ i
  placed : ∀ s ∈ g.stmtsOf current, (g.stmt s).offset ≤ i
  ahead_empty : ∀ b ∈ ahead, (g.block b).first = none
  ahead_gt : ∀ b ∈ ahead, (i : Int) < (g.block b).offset
  isTarget : ∀ b ∈ done ++ current :: ahead, IsTarget code (g.block b).offset
  target_made : ∀ offset : Int, offset ≤ i → IsTarget code offset →
    ∃ b ∈ done ++ [current], (g.block b).offset = offset

/-- The blocks of `g` are still there in `g'`, with the offsets they had. -/
def OffsetsKept (g g' : Graph) : Prop :=
  ∀ b : Nat, b < g.blockCount → b < g'.blockCount ∧ (g'.block b).offset = (g.block b).offset

namespace Layout

variable {code : List Instr} {i : Nat} {g g' : Graph} {done ahead : List BlockId}
  {current : BlockId}

theorem mem_lt (h : Layout code i g done current ahead) {b : BlockId}
    (hb : b ∈ done ++ current :: ahead) :
    b < g.blockCount := by
  rw [← h.chain] at hb
  exact (h.chained.mem_iff b).mp hb

theorem mem_chain_of_mem {b : BlockId} (hb : b ∈ done ++ [current]) :
    b ∈ done ++ current :: ahead := by
  rw [List.append_cons]
  exact List.mem_append_left _ hb

section

variable (h : Layout code i g done current ahead)
include h

/-- Changes that touch neither blocks nor statements leave the chain as it is. -/
theorem congr (hsame : g.SameBlocks g') (hlinked : g'.Linked) :
    Layout code i g' done current ahead := by
  have hchain := h.chained.congr g' hsame.blockCount_eq
    fun b => congrArg Block.next (hsame.block_eq b)
  refine {
    linked := hlinked
    ended := h.ended.congr hsame
    chained := hchain.1
    chain := hchain.2.trans h.chain
    rising := ?_
    zero_offset := ?_
    current_le := ?_
    placed := ?_
    ahead_empty := ?_
    ahead_gt := ?_
    isTarget := ?_
    target_made := ?_ }
  · simpa only [Graph.Rising, hsame.block_eq] using h.rising
  · rw [hsame.block_eq]
    exact h.zero_offset
  · rw [hsame.block_eq]
    exact h.current_le
  · rw [hsame.stmtsOf_eq]
    simpa only [hsame.stmt_eq] using h.placed
  · simpa only [hsame.block_eq] using h.ahead_empty
  · simpa only [hsame.block_eq] using h.ahead_gt
  · simpa only [hsame.block_eq] using h.isTarget
  · simpa only [hsame.block_eq] using h.target_made

/-- A statement is put at the end of the current block. -/
theorem append {offset : Int} (hoffset : offset ≤ i) (t : Tree) :
    Layout code i (g.append current offset t) done current ahead := by
  have hkept : ∀ b, ((g.append current offset t).block b).offset = (g.block b).offset := by
    intro b
    rw [Graph.append_block]
    split <;> rfl
  have hnodup : (done ++ current :: ahead).Nodup := h.chain ▸ h.chained.nodup
  have hchain := (h.chained.congr _ (g.append_blockCount current offset t) fun b => by
    rw [Graph.append_block]
    split <;> rfl).2
  refine {
    linked := h.linked.append current offset t
    ended := h.ended.append h.linked current offset t
    chained := h.chained.append current offset t
    chain := hchain.trans h.chain
    rising := ?_
    zero_offset := (hkept 0).trans h.zero_offset
    current_le := ?_
    placed := ?_
    ahead_empty := ?_
    ahead_gt := ?_
    isTarget := ?_
    target_made := ?_ }
  · simpa only [Graph.Rising, hkept] using h.rising
  · rw [hkept]
    exact h.current_le
  · rw [Graph.stmtsOf_append h.ended h.linked, if_pos rfl]
    intro s hs
    rw [Graph.append_stmt_offset]
    rcases List.mem_append.mp hs with hs | hs
    · rw [if_neg (Nat.ne_of_lt (h.linked.lt_of_mem_stmtsOf hs))]
      exact h.placed s hs
    · rw [if_pos (List.mem_singleton.mp hs)]
      exact hoffset
  · intro b hb
    have hne : b ≠ current := by
      rintro rfl
      have hcons := (List.nodup_append.mp hnodup).2.1
      exact (List.nodup_cons.mp hcons).1 hb
    rw [Graph.append_block, if_neg hne]
    exact h.ahead_empty b hb
  · simpa only [hkept] using h.ahead_gt
  · simpa only [hkept] using h.isTarget
  · simpa only [hkept] using h.target_made

/-- An empty block is put in behind the current one. -/
theorem insertBehind {offset : Int} (hoffset : (i : Int) < offset) (htarget : IsTarget code offset)
    (hbefore : ∀ b ∈ ahead, offset < (g.block b).offset) :
    Layout code i (g.insertBehind current offset) done current (g.blockCount :: ahead) := by
  have hlt : ∀ b ∈ done ++ current :: ahead, b ≠ g.blockCount :=
    fun b hb => Nat.ne_of_lt (h.mem_lt hb)
  have hkept : ∀ b ∈ done ++ current :: ahead,
      ((g.insertBehind current offset).block b).offset = (g.block b).offset := by
    intro b hb
    rw [Graph.insertBehind_offset, if_neg (hlt b hb)]
  have hnew : ((g.insertBehind current offset).block g.blockCount).offset = offset := by
    rw [Graph.insertBehind_offset, if_pos rfl]
  have hcurrent : current ∈ done ++ current :: ahead := by simp
  have hahead : ∀ b ∈ ahead, b ∈ done ++ current :: ahead := fun b hb => by simp [hb]
  have hdone : ∀ b ∈ done, b ∈ done ++ current :: ahead := fun b hb => by simp [hb]
  have hinsert := h.chained.insert h.chain (g.insertBehind_blockCount current offset)
    fun c => g.insertBehind_next current c offset
  obtain ⟨hrdone, hrest, hacross⟩ := List.pairwise_append.mp h.rising
  obtain ⟨hrcurrent, hrahead⟩ := List.pairwise_cons.mp hrest
  refine {
    linked := h.linked.insertBehind current offset
    ended := h.ended.insertBehind current offset
    chained := hinsert.1
    chain := hinsert.2
    rising := ?_
    zero_offset := ?_
    current_le := ?_
    placed := ?_
    ahead_empty := ?_
    ahead_gt := ?_
    isTarget := ?_
    target_made := ?_ }
  · refine List.pairwise_append.mpr ⟨?_, List.pairwise_cons.mpr ⟨?_, List.pairwise_cons.mpr
      ⟨?_, ?_⟩⟩, ?_⟩
    · refine hrdone.imp_of_mem ?_
      intro b c hb hc hbc
      rwa [hkept b (hdone b hb), hkept c (hdone c hc)]
    · intro b hb
      rw [hkept current hcurrent]
      rcases List.mem_cons.mp hb with rfl | hb
      · rw [hnew]
        exact Int.lt_of_le_of_lt h.current_le hoffset
      · rw [hkept b (hahead b hb)]
        exact hrcurrent b hb
    · intro b hb
      rw [hnew, hkept b (hahead b hb)]
      exact hbefore b hb
    · refine hrahead.imp_of_mem ?_
      intro b c hb hc hbc
      rwa [hkept b (hahead b hb), hkept c (hahead c hc)]
    · intro b hb c hc
      rw [hkept b (hdone b hb)]
      rcases List.mem_cons.mp hc with rfl | hc
      · rw [hkept c hcurrent]
        exact hacross b hb c (by simp)
      · rcases List.mem_cons.mp hc with rfl | hc
        · rw [hnew]
          have hlast := hacross b hb current (by simp)
          have hle := h.current_le
          omega
        · rw [hkept c (hahead c hc)]
          exact hacross b hb c (by simp [hc])
  · have hzero : 0 ∈ done ++ current :: ahead := by
      rw [← h.chain, h.chained.mem_iff]
      exact Nat.lt_of_le_of_lt (Nat.zero_le _) (h.mem_lt hcurrent)
    rw [hkept 0 hzero]
    exact h.zero_offset
  · rw [hkept current hcurrent]
    exact h.current_le
  · rw [Graph.stmtsOf_congr (g.insertBehind_stmt current offset)
      (g.insertBehind_stmtCount current offset)]
    · simpa only [Graph.insertBehind_stmt] using h.placed
    · rw [Graph.insertBehind_first, if_neg (hlt current hcurrent)]
  · intro b hb
    rw [Graph.insertBehind_first]
    rcases List.mem_cons.mp hb with rfl | hb
    · rw [if_pos rfl]
    · rw [if_neg (hlt b (hahead b hb))]
      exact h.ahead_empty b hb
  · intro b hb
    rcases List.mem_cons.mp hb with rfl | hb
    · rw [hnew]
      exact hoffset
    · rw [hkept b (hahead b hb)]
      exact h.ahead_gt b hb
  · intro b hb
    by_cases hnewest : b = g.blockCount
    · rw [hnewest, hnew]
      exact htarget
    · have hold : b ∈ done ++ current :: ahead := by
        rcases List.mem_append.mp hb with hb | hb
        · exact hdone b hb
        · rcases List.mem_cons.mp hb with rfl | hb
          · exact hcurrent
          · exact hahead b ((List.mem_cons.mp hb).resolve_left hnewest)
      rw [hkept b hold]
      exact h.isTarget b hold
  · intro k hk hmade
    obtain ⟨b, hb, hbk⟩ := h.target_made k hk hmade
    exact ⟨b, hb, (hkept b (mem_chain_of_mem hb)).trans hbk⟩

/-- A look-up lands in a block that starts at the target, or else in the current block or
in one of those ahead, and then all later blocks start behind the target. -/
theorem landing_cases {offset : Int} (htarget : IsTarget code offset) :
    ∃ d ∈ done ++ current :: ahead, g.landing offset 0 (g.blocksFrom 0).tail = d ∧
      ((g.block d).offset = offset ∨
        (g.block d).offset ≠ offset ∧ (i : Int) < offset ∧ (d = current ∨ d ∈ ahead) ∧
          ∀ c ∈ done ++ current :: ahead,
            (g.block d).offset < (g.block c).offset → offset < (g.block c).offset) := by
  obtain ⟨d, hd⟩ : ∃ d, g.landing offset 0 (g.blocksFrom 0).tail = d := ⟨_, rfl⟩
  have hstart : 0 :: (g.blocksFrom 0).tail = done ++ current :: ahead := by
    have hfollows := h.chained.follows
    rw [h.chain] at hfollows ⊢
    cases done with
    | nil => rw [← Option.some.inj hfollows.1]; rfl
    | cons c done => rw [← Option.some.inj hfollows.1]; rfl
  obtain ⟨before, after, hsplit, hle, hafter⟩ : ∃ before after,
      done ++ current :: ahead = before ++ d :: after ∧ (g.block d).offset ≤ offset ∧
        ∀ c ∈ after, offset < (g.block c).offset := by
    rw [← hstart, ← hd]
    refine Graph.landing_spec (hstart ▸ h.rising) ?_
    rw [h.zero_offset]
    exact htarget.nonneg
  have hrising := h.rising
  rw [hsplit] at hrising
  have hlater : ∀ c ∈ done ++ current :: ahead,
      (g.block d).offset < (g.block c).offset → offset < (g.block c).offset := by
    intro c hc hdc
    rw [hsplit] at hc
    rcases List.mem_append.mp hc with hc | hc
    · have hcd := (List.pairwise_append.mp hrising).2.2 c hc d (by simp)
      omega
    · rcases List.mem_cons.mp hc with rfl | hc
      · exact absurd hdc (Int.lt_irrefl _)
      · exact hafter c hc
  have hmem : d ∈ done ++ current :: ahead := by
    rw [hsplit]
    simp
  refine ⟨d, hmem, hd, ?_⟩
  by_cases hne : (g.block d).offset = offset
  · exact Or.inl hne
  have hi : (i : Int) < offset := by
    by_contra hi
    obtain ⟨c, hc, hoffset⟩ := h.target_made offset (Int.not_lt.mp hi) htarget
    have hless := hlater c (mem_chain_of_mem hc)
    omega
  refine Or.inr ⟨hne, hi, ?_, hlater⟩
  rcases List.mem_append.mp hmem with hdone | hrest
  · have hless := hlater current (by simp)
      ((List.pairwise_append.mp h.rising).2.2 d hdone current (by simp))
    have hcurrent := h.current_le
    omega
  · exact List.mem_cons.mp hrest

/-- What a look-up does while a program is read: no block is ever cut. -/
theorem blockAt {offset : Int} (htarget : IsTarget code offset) {b : BlockId}
    (hlook : Graph.blockAt 0 offset g = .ok b g') :
    ∃ ahead', Layout code i g' done current ahead' ∧ b ∈ done ++ current :: ahead' ∧
      (g'.block b).offset = offset ∧ OffsetsKept g g' ∧
      ∀ c ∈ done ++ [current], g'.rootsOf c = g.rootsOf c := by
  obtain ⟨d, hmem, hd, hcases⟩ := h.landing_cases htarget
  have hplaced : (g.block d).offset ≠ offset → ∀ s ∈ g.stmtsOf d, (g.stmt s).offset < offset := by
    intro hne s hs
    obtain ⟨-, hi, rfl | hahead, -⟩ := hcases.resolve_left hne
    · exact Int.lt_of_le_of_lt (h.placed s hs) hi
    · rw [Graph.stmtsOf_eq_nil (h.ahead_empty d hahead)] at hs
      cases hs
  rcases Graph.blockAt_cases hlook with ⟨hplace, rfl⟩ | ⟨c, hplace, rfl, rfl⟩ | ⟨c, s, hplace, -, -⟩
  · rcases Graph.locate_cases hplace hd hplaced with ⟨hoffset, hfound⟩ | ⟨-, -, hfound⟩
    · injection hfound with hfound
      subst hfound
      exact ⟨ahead, h, hmem, hoffset, fun c hc => ⟨hc, rfl⟩, fun c _ => rfl⟩
    · cases hfound
  · rcases Graph.locate_cases hplace hd hplaced with ⟨-, hfound⟩ | ⟨hne, hfirst, hfound⟩
    · cases hfound
    · injection hfound with hfound
      subst hfound
      obtain ⟨-, hi, rfl | hahead, hlater⟩ := hcases.resolve_left hne
      · refine ⟨g.blockCount :: ahead, h.insertBehind hi htarget ?_, by simp, ?_, ?_, ?_⟩
        · intro b hb
          refine hlater b (by simp [hb]) ?_
          exact (List.pairwise_cons.mp (List.pairwise_append.mp h.rising).2.1).1 b hb
        · rw [Graph.insertBehind_offset, if_pos rfl]
        · intro b hb
          rw [Graph.insertBehind_offset, if_neg (Nat.ne_of_lt hb), Graph.insertBehind_blockCount]
          exact ⟨Nat.lt_succ_of_lt hb, rfl⟩
        · intro b hb
          refine Graph.rootsOf_congr (g.insertBehind_stmt _ _) (g.insertBehind_stmtCount _ _) ?_
          rw [Graph.insertBehind_first, if_neg (Nat.ne_of_lt (h.mem_lt (mem_chain_of_mem hb)))]
      · exact absurd (h.ahead_empty _ hahead) hfirst
  · rcases Graph.locate_cases hplace hd hplaced with ⟨-, hfound⟩ | ⟨-, -, hfound⟩ <;> cases hfound

/-- Behind an instruction that stays in its block, the chain looks as before. -/
theorem stay {instr : Instr} (hinstr : code[i]? = some instr)
    (hstay : instr.opcode.leaves = false) : Layout code (i + 1) g done current ahead := by
  have hnot : ¬ IsTarget code (i + 1 : Nat) := by
    rw [IsTarget.succ_iff hinstr, hstay]
    exact Bool.false_ne_true
  refine { h with current_le := ?_, placed := ?_, ahead_gt := ?_, target_made := ?_ }
  · have hle := h.current_le
    omega
  · intro s hs
    have hle := h.placed s hs
    omega
  · intro b hb
    have hlt := h.ahead_gt b hb
    have htarget := h.isTarget b (by simp [hb])
    have hne : (g.block b).offset ≠ (i + 1 : Nat) := by
      intro heq
      rw [heq] at htarget
      exact hnot htarget
    omega
  · intro offset hoffset htarget
    refine h.target_made offset ?_ htarget
    have hne : offset ≠ (i + 1 : Nat) := by
      rintro rfl
      exact hnot htarget
    omega

/-- Behind an instruction that leaves its block, the block that starts there becomes the
current one: it is the first of the blocks ahead. -/
theorem leave {b : BlockId} (hb : b ∈ done ++ current :: ahead)
    (hoffset : (g.block b).offset = (i + 1 : Nat)) :
    ∃ ahead', ahead = b :: ahead' ∧ Layout code (i + 1) g (done ++ [current]) b ahead' := by
  obtain ⟨-, hrest, hacross⟩ := List.pairwise_append.mp h.rising
  obtain ⟨hcurrent, hahead⟩ := List.pairwise_cons.mp hrest
  have hle := h.current_le
  have hmem : b ∈ ahead := by
    rcases List.mem_append.mp hb with hb | hb
    · have hless := hacross b hb current (by simp)
      omega
    · rcases List.mem_cons.mp hb with rfl | hb
      · omega
      · exact hb
  cases ahead with
  | nil => cases hmem
  | cons c rest =>
      obtain ⟨hcrest, -⟩ := List.pairwise_cons.mp hahead
      obtain rfl : b = c := by
        rcases List.mem_cons.mp hmem with rfl | hmem
        · rfl
        · have hless := hcrest b hmem
          have hnear := h.ahead_gt c (by simp)
          omega
      have hsame : done ++ current :: b :: rest = (done ++ [current]) ++ b :: rest := by simp
      refine ⟨rest, rfl, { h with
        chain := hsame ▸ h.chain
        rising := hsame ▸ h.rising
        current_le := Int.le_of_eq hoffset
        placed := ?_
        ahead_empty := fun c hc => h.ahead_empty c (by simp [hc])
        ahead_gt := ?_
        isTarget := hsame ▸ h.isTarget
        target_made := ?_ }⟩
      · rw [Graph.stmtsOf_eq_nil (h.ahead_empty b (by simp))]
        simp
      · intro c hc
        rw [← hoffset]
        exact hcrest c hc
      · intro offset hk htarget
        by_cases hi : offset ≤ i
        · obtain ⟨c, hc, hck⟩ := h.target_made offset hi htarget
          exact ⟨c, List.mem_append_left _ hc, hck⟩
        · refine ⟨b, by simp, ?_⟩
          omega

end

end Layout
end LinearScan
