import LinearScan.Proofs.BlockList
import Mathlib.Computability.StateTransition

/-!
# The links of a list of blocks

However a list of blocks was built, following its links forward comes to an end: statements lead to
statements that were made later, and the chain of blocks holds no block twice.  So the two loops of
a search end as well, which follow the links of blocks and then those of statements.

Of the links back between blocks nothing but the first one is reliable.  A new block takes over the
link back of the block it is put in behind; only the block behind the new one is linked back to it.
-/

namespace LinearScan

namespace Graph

open StateTransition (eval mem_eval Reaches)

variable {g g' : Graph} {b c : BlockId} {s : StmtId} {offset : Int}

/-! ## Forward -/

/-- One step of the search for a block: on to the next block, if `b` starts before the offset and
the next block does not start behind it. -/
def seekBlock (g : Graph) (offset : Int) (b : BlockId) : Option BlockId :=
  if (g.block b).offset < offset then
    (g.block b).next.filter fun c => (g.block c).offset ≤ offset
  else none

/-- One step of the search for a statement: on to the next one, if `s` starts before the offset. -/
def seekStmt (g : Graph) (offset : Int) (s : StmtId) : Option StmtId :=
  if (g.stmt s).offset < offset then (g.stmt s).next else none

/-- What a search gives if its loop over blocks ended at `b`.  Unless `b` starts at the offset, a
second loop goes over the statements of `b`, and the one at which it ends decides. -/
inductive Finds (g : Graph) (offset : Int) (b : BlockId) : Except Fault Landing → Prop where
  | existing (heq : (g.block b).offset = offset) : Finds g offset b (.ok (.existing b))
  | empty (hne : (g.block b).offset ≠ offset) (hfirst : (g.block b).first = none) :
      Finds g offset b (.error .emptyBlock)
  | behind {s r : StmtId} (hne : (g.block b).offset ≠ offset) (hfirst : (g.block b).first = some s)
      (hr : r ∈ eval (g.seekStmt offset) s) (hlt : (g.stmt r).offset < offset) :
      Finds g offset b (.ok (.behind b))
  | between {s r : StmtId} (hne : (g.block b).offset ≠ offset)
      (hfirst : (g.block b).first = some s) (hr : r ∈ eval (g.seekStmt offset) s)
      (hlt : offset < (g.stmt r).offset) : Finds g offset b (.error .betweenStatements)
  | within {s r : StmtId} (hne : (g.block b).offset ≠ offset) (hfirst : (g.block b).first = some s)
      (hr : r ∈ eval (g.seekStmt offset) s) (heq : (g.stmt r).offset = offset) :
      Finds g offset b (.ok (.within b r))

/-- A loop that goes on from `a` to `b` ends where it ends from `b`. -/
theorem mem_eval_of_step {f : Nat → Option Nat} {a b c : Nat} (h : f a = some b)
    (hc : c ∈ eval f b) : c ∈ eval f a := by
  obtain ⟨hreaches, hstop⟩ := mem_eval.mp hc
  exact mem_eval.mpr ⟨hreaches.head h, hstop⟩

/-- A loop that does not go on from `a` ends there. -/
theorem mem_eval_self {f : Nat → Option Nat} {a : Nat} (h : f a = none) : a ∈ eval f a :=
  mem_eval.mpr ⟨.refl, h⟩

/-- The loop over the blocks of a chain ends where the search lands. -/
theorem landing_mem_eval {rest : List BlockId}
    (h : Follows (fun b => (g.block b).next) (some b) (b :: rest)) :
    g.landing offset b rest ∈ eval (g.seekBlock offset) b := by
  induction rest generalizing b with
  | nil =>
      refine mem_eval_self ?_
      have hnext : (g.block b).next = none := h.2
      simp [seekBlock, hnext]
  | cons c rest ih =>
      have hnext : (g.block b).next = some c := h.2.1
      rw [landing]
      split
      · next hgo =>
          refine mem_eval_of_step ?_ (ih ⟨rfl, h.2.2⟩)
          simp [seekBlock, hnext, hgo.1, hgo.2]
      · next hstop =>
          refine mem_eval_self ?_
          rw [seekBlock, hnext, Option.filter_some]
          grind

/-- The loop over the statements of a chain ends at the first that does not start before the
offset, or else at the last. -/
theorem exists_mem_eval_seekStmt (offset : Int) {rest : List StmtId}
    (h : Follows (fun s => (g.stmt s).next) (some s) (s :: rest)) :
    ∃ r ∈ eval (g.seekStmt offset) s,
      ((s :: rest).dropWhile fun s => (g.stmt s).offset < offset).head? =
        if (g.stmt r).offset < offset then none else some r := by
  induction rest generalizing s with
  | nil =>
      have hnext : (g.stmt s).next = none := h.2
      refine ⟨s, mem_eval_self (by simp [seekStmt, hnext]), ?_⟩
      by_cases hlt : (g.stmt s).offset < offset
      · simp [hlt]
      · simp [hlt]
  | cons q rest ih =>
      have hnext : (g.stmt s).next = some q := h.2.1
      by_cases hlt : (g.stmt s).offset < offset
      · obtain ⟨r, hr, hdrop⟩ := ih ⟨rfl, h.2.2⟩
        refine ⟨r, mem_eval_of_step (by simp [seekStmt, hlt, hnext]) hr, ?_⟩
        rw [List.dropWhile_cons_of_pos (by simpa using hlt), hdrop]
      · refine ⟨s, mem_eval_self (by simp [seekStmt, hlt]), ?_⟩
        rw [List.dropWhile_cons_of_neg (by simpa using hlt), if_neg hlt, List.head?_cons]

/-- Both loops of a search end, and give what the search gives. -/
theorem Threaded.exists_finds (hg : g.Threaded) (offset : Int) :
    ∃ b ∈ eval (g.seekBlock offset) 0, g.Finds offset b (g.locate 0 offset) := by
  have hfollows := hg.chained.follows
  rw [← hg.cons_tail] at hfollows
  refine ⟨_, landing_mem_eval hfollows, ?_⟩
  simp only [locate]
  generalize g.landing offset 0 (g.blocksFrom 0).tail = b
  by_cases heq : (g.block b).offset = offset
  · rw [if_pos heq]
    exact .existing heq
  rw [if_neg heq]
  cases hfirst : (g.block b).first with
  | none =>
      rw [if_pos rfl]
      exact .empty heq hfirst
  | some s =>
      have hstmts := (hg.linked.stmtsOf_spec b).1
      rw [hfirst] at hstmts
      obtain ⟨rest, hrest⟩ : ∃ rest, g.stmtsOf b = s :: rest := by
        cases hss : g.stmtsOf b with
        | nil =>
            rw [hss] at hstmts
            cases hstmts
        | cons r rest =>
            rw [hss] at hstmts
            rw [Option.some.inj hstmts.1]
            exact ⟨rest, rfl⟩
      rw [hrest] at hstmts ⊢
      obtain ⟨r, hr, hdrop⟩ := exists_mem_eval_seekStmt offset hstmts
      rw [if_neg (by simp)]
      cases hleft : (s :: rest).dropWhile fun s => (g.stmt s).offset < offset with
      | nil =>
          rw [hleft] at hdrop
          have hlt : (g.stmt r).offset < offset := by
            by_contra hge
            simp [hge] at hdrop
          exact .behind heq hfirst hr hlt
      | cons q left =>
          rw [hleft, List.head?_cons] at hdrop
          split at hdrop
          · cases hdrop
          · next hge =>
              obtain rfl := Option.some.inj hdrop
              dsimp only
              split
              · next hlt => exact .between heq hfirst hr hlt
              · next hle => exact .within heq hfirst hr (by omega)

/-- **Traversals end.**  In every list of blocks that can be built, the links of statements lead
from the first statement of a block along its statements to an end, and from its last statement to
an end at once; those of blocks lead from the first block along all blocks to an end.  At any offset
the two loops of a search end and give what the search gives. -/
theorem Grown.traversals_end (hg : g.Grown) :
    (∀ b, Follows (fun s => (g.stmt s).next) (g.block b).first (g.stmtsOf b) ∧
      Follows (fun s => (g.stmt s).next) (g.block b).last (g.block b).last.toList) ∧
    Follows (fun b => (g.block b).next) (some 0) (g.blocksFrom 0) ∧
    ∀ offset, ∃ b ∈ eval (g.seekBlock offset) 0, g.Finds offset b (g.locate 0 offset) := by
  have hthreaded := hg.threaded
  refine ⟨fun b => ⟨(hthreaded.linked.stmtsOf_spec b).1, ?_⟩, hthreaded.chained.follows,
    hthreaded.exists_finds⟩
  cases hlast : (g.block b).last with
  | none => rfl
  | some l => exact ⟨rfl, hthreaded.last_next hlast⟩

/-- In a list that was cut badly the two blocks share statements, and the last one notes a statement
that no link leads to; a search behind them all ends, too. -/
theorem Grown.traversals_end_cutEarly :
    Samples.cutEarly.Grown ∧ Samples.cutEarly.stmtsOf 0 = [0, 1, 3] ∧
      Samples.cutEarly.stmtsOf 1 = [1, 3] ∧
      Follows (fun s => (Samples.cutEarly.stmt s).next) (some 1) [1, 3] ∧
      Follows (fun s => (Samples.cutEarly.stmt s).next) (some 2) [2] ∧
      ∃ b ∈ eval (Samples.cutEarly.seekBlock 4) 0,
        Samples.cutEarly.Finds 4 b (.ok (.behind 1)) := by
  have hgrown := Samples.built_cutEarly.grown
  obtain ⟨hstmts, -, hsearch⟩ := Grown.traversals_end hgrown
  exact ⟨hgrown, by decide, by decide, (hstmts 1).1, (hstmts 1).2, hsearch 4⟩

/-! ## Back -/

/-- The links back are those forward, turned round. -/
def DoublyLinked (g : Graph) : Prop :=
  (g.block 0).prev = none ∧
    ∀ b ∈ g.blocksFrom 0, ∀ c, (g.block b).next = some c → (g.block c).prev = some b

theorem insertBehind_prev (g : Graph) {b c : BlockId} (offset : Int) (hc : c < g.blockCount) :
    ((g.insertBehind b offset).block c).prev =
      if (g.block b).next = some c then some g.blockCount else (g.block c).prev := by
  have hne : g.blockCount ≠ c := Nat.ne_of_gt hc
  simp only [insertBehind, block_modifyBlock?, block_modifyBlock, block_addBlock, if_neg hne]
  grind

theorem insertBehind_prev_new (g : Graph) {b : BlockId} (offset : Int)
    (hb : (g.block b).next ≠ some g.blockCount) :
    ((g.insertBehind b offset).block g.blockCount).prev = (g.block b).prev := by
  simp only [insertBehind, block_modifyBlock?, block_modifyBlock, block_addBlock, if_neg hb]
  grind

theorem split_prev (g : Graph) (b c : BlockId) (s : StmtId) (offset : Int) :
    ((g.split b s offset).block c).prev = ((g.insertBehind b offset).block c).prev := by
  simp only [split_eq, block_modifyStmt, block_modifyBlock, block_modifyStmt?, block_addStmt,
    newTree_block, newEdge_block]
  grind

section

variable {first : BlockId} {before after : List BlockId} (hg : g.Chained first)
  (hsplit : g.blocksFrom first = before ++ b :: after)
include hg hsplit

/-- A block leads to the one behind it. -/
theorem Chained.next_eq_head? : (g.block b).next = after.head? := by
  have hfollows := hg.follows
  rw [hsplit] at hfollows
  have hrest := hfollows.of_append
  cases after with
  | nil => exact hrest
  | cons c after => exact hrest.1

/-- When a block is put in behind `b`, only the block behind `b` gets another link back. -/
theorem Chained.insertBehind_prev_eq (offset : Int) (hc : c ∈ before ++ [b] ∨ c ∈ after.tail) :
    ((g.insertBehind b offset).block c).prev = (g.block c).prev := by
  have hsplit' : g.blocksFrom first = (before ++ [b]) ++ after := by simp [hsplit]
  have hmem : c ∈ g.blocksFrom first := by
    rw [hsplit', List.mem_append]
    exact hc.imp_right fun hc => List.mem_of_mem_tail hc
  rw [insertBehind_prev g offset ((hg.mem_iff c).mp hmem), if_neg]
  rw [hg.next_eq_head? hsplit]
  intro hhead
  obtain ⟨after, rfl⟩ := List.head?_eq_some_iff.mp hhead
  have hnodup := hg.nodup
  rw [hsplit'] at hnodup
  exact (List.nodup_cons.mp (List.nodup_middle.mp hnodup)).1 (List.mem_append.mpr hc)

end

/-- What holds of the links back.  Blocks are numbered as they are made, so a block is linked back
to the one before it exactly if that one was made later. -/
structure BackLinked (g : Graph) : Prop where
  zero_prev : (g.block 0).prev = none
  prev_lt : ∀ {c p : Nat}, c < g.blockCount → (g.block c).prev = some p →
    p < g.blockCount ∧ p ≠ c
  isChain : (g.blocksFrom 0).IsChain fun b c => (g.block c).prev = some b ↔ c < b

namespace BackLinked

/-- A change that leaves the links between blocks alone. -/
theorem congr (h : g.BackLinked) (hg : g.Chained 0) (hcount : g'.blockCount = g.blockCount)
    (hnext : ∀ b, (g'.block b).next = (g.block b).next)
    (hprev : ∀ b, (g'.block b).prev = (g.block b).prev) : g'.BackLinked where
  zero_prev := (hprev 0).trans h.zero_prev
  prev_lt := by
    intro c p hc hp
    rw [hcount] at hc ⊢
    exact h.prev_lt hc ((hprev c).symm.trans hp)
  isChain := by
    rw [(hg.congr g' hcount hnext).2]
    simpa only [hprev] using h.isChain

/-- A change that puts a new block in behind `b`. -/
theorem insert (h : g.BackLinked) (hg : g.Threaded) (hb : b < g.blockCount)
    (hcount : g'.blockCount = g.blockCount + 1)
    (hnext : ∀ c, (g'.block c).next = ((g.insertBehind b offset).block c).next)
    (hprev : ∀ c, (g'.block c).prev = ((g.insertBehind b offset).block c).prev) :
    g'.BackLinked := by
  obtain ⟨before, after, hsplit⟩ := List.append_of_mem ((hg.chained.mem_iff b).mpr hb)
  have hchain := (hg.chained.insert hsplit hcount fun c => by rw [hnext, insertBehind_next]).2
  have hlt : ∀ c ∈ after, c < g.blockCount :=
    fun c hc => (hg.chained.mem_iff c).mp (by simp [hsplit, hc])
  have hhead := hg.chained.next_eq_head? hsplit
  have hnew : (g'.block g.blockCount).prev = (g.block b).prev := by
    rw [hprev, insertBehind_prev_new]
    intro hlast
    exact Nat.lt_irrefl _ (hlt _ (List.mem_of_mem_head? (hhead.symm.trans hlast)))
  have hold : ∀ c, c ∈ before ++ [b] ∨ c ∈ after.tail → (g'.block c).prev = (g.block c).prev :=
    fun c hc => (hprev c).trans (hg.chained.insertBehind_prev_eq hsplit offset hc)
  refine ⟨?_, ?_, ?_⟩
  · rw [hold 0, h.zero_prev]
    left
    have hzero := hg.cons_tail.trans hsplit
    cases before with
    | nil => simp [(List.cons.inj hzero).1]
    | cons x before => simp [(List.cons.inj hzero).1]
  · intro c p hc hp
    rw [hcount] at hc ⊢
    rcases Nat.lt_succ_iff_lt_or_eq.mp hc with hc | rfl
    · rw [hprev, insertBehind_prev g offset hc] at hp
      split at hp
      · obtain rfl := Option.some.inj hp
        exact ⟨Nat.lt_succ_self _, Nat.ne_of_gt hc⟩
      · exact ⟨Nat.lt_succ_of_lt (h.prev_lt hc hp).1, (h.prev_lt hc hp).2⟩
    · have hplt := (h.prev_lt hb (hnew.symm.trans hp)).1
      exact ⟨Nat.lt_succ_of_lt hplt, Nat.ne_of_lt hplt⟩
  · have hlinked := h.isChain
    rw [hsplit] at hlinked
    obtain ⟨hbefore, hbehind⟩ := List.isChain_split.mp hlinked
    rw [hchain, List.isChain_append_cons_cons]
    refine ⟨?_, ?_, ?_⟩
    · refine hbefore.imp_of_mem_imp ?_
      intro d c _ hc hdc
      rwa [hold c (Or.inl hc)]
    · -- the new block is linked back as `b` is, and so not to `b`
      rw [hnew]
      exact iff_of_false (fun hself => (h.prev_lt hb hself).2 rfl) (Nat.not_lt_of_gt hb)
    · cases after with
      | nil => exact .singleton _
      | cons d after =>
          obtain ⟨-, hrest⟩ := List.isChain_cons_cons.mp hbehind
          have hd := hlt d List.mem_cons_self
          refine List.isChain_cons_cons.mpr ⟨?_, ?_⟩
          · rw [List.head?_cons] at hhead
            rw [hprev, insertBehind_prev g offset hd, if_pos hhead]
            exact iff_of_true rfl hd
          · refine hrest.imp_of_mem_tail_imp ?_
            intro e c _ hc hec
            rwa [hold c (Or.inr hc)]

/-- What a look-up keeps. -/
theorem lookup (h : g.BackLinked) (hg : g.Threaded) (hlook : blockAt 0 offset g = .ok b g') :
    g'.BackLinked := by
  rcases blockAt_cases hlook with ⟨-, rfl⟩ | ⟨c, hplace, -, rfl⟩ | ⟨c, s, hplace, -, rfl⟩
  · exact h
  · exact h.insert hg (locate_spec hg.chained hplace) (g.insertBehind_blockCount c offset)
      (fun _ => rfl) fun _ => rfl
  · exact h.insert hg (locate_spec hg.chained hplace).1 (g.split_blockCount c s offset)
      (fun d => g.split_next c d s offset) fun d => g.split_prev c d s offset

end BackLinked

theorem Grown.backLinked (hg : g.Grown) : g.BackLinked := by
  induction hg with
  | fresh =>
      refine ⟨by rw [block_newChain], ?_, .singleton 0⟩
      intro c p _ hp
      rw [block_newChain] at hp
      cases hp
  | edge hg target ih => exact ih.congr hg.threaded.chained rfl (fun _ => rfl) fun _ => rfl
  | tree hg kind operands b ts ih =>
      exact ih.congr hg.threaded.chained rfl (fun _ => rfl) fun _ => rfl
  | append hg b offset t ih =>
      refine ih.congr hg.threaded.chained (append_blockCount _ b offset t) ?_ ?_ <;>
      · intro c
        rw [append_block]
        split <;> rfl
  | lookup hg h ih => exact ih.lookup hg.threaded h

/-- **Links back.**  In every list of blocks that can be built the first block has no link back.  A
block is linked back to the one before it exactly if that one was made later.  So the list is doubly
linked exactly as long as it has one block only. -/
theorem Grown.doublyLinked_iff (hg : g.Grown) :
    (g.block 0).prev = none ∧
      (∀ b ∈ g.blocksFrom 0, ∀ c, (g.block b).next = some c →
        ((g.block c).prev = some b ↔ c < b)) ∧
      (g.DoublyLinked ↔ g.blocksFrom 0 = [0]) := by
  have hback := hg.backLinked
  have hchained := hg.threaded.chained
  have hlinks : ∀ b ∈ g.blocksFrom 0, ∀ c, (g.block b).next = some c →
      ((g.block c).prev = some b ↔ c < b) := by
    intro b hb c hc
    obtain ⟨before, after, hsplit⟩ := List.append_of_mem hb
    have hhead := (hchained.next_eq_head? hsplit).symm.trans hc
    obtain ⟨rest, rfl⟩ := List.head?_eq_some_iff.mp hhead
    have hlinked := hback.isChain
    rw [hsplit] at hlinked
    exact (List.isChain_append_cons_cons.mp hlinked).2.1
  refine ⟨hback.zero_prev, hlinks, ?_, ?_⟩
  · rintro ⟨-, hdouble⟩
    have hzero : 0 ∈ g.blocksFrom 0 := hg.threaded.cons_tail ▸ List.mem_cons_self
    have hnext : (g.block 0).next = none := by
      by_contra hne
      obtain ⟨c, hc⟩ := Option.ne_none_iff_exists'.mp hne
      exact Nat.not_lt_zero c ((hlinks 0 hzero c hc).mp (hdouble 0 hzero c hc))
    exact hchained.follows.unique ⟨rfl, hnext⟩
  · intro hone
    refine ⟨hback.zero_prev, ?_⟩
    intro b hb c hc
    rw [hone, List.mem_singleton] at hb
    subst hb
    have hnext : (g.block 0).next = none :=
      hchained.next_eq_head? (show g.blocksFrom 0 = [] ++ 0 :: [] from hone)
    cases hnext.symm.trans hc

end Graph

/-- As long as there is one block, the list is doubly linked. -/
theorem Graph.Grown.doublyLinked_discards :
    (Samples.discards [0, 2, 4]).Grown ∧ (Samples.discards [0, 2, 4]).DoublyLinked :=
  ⟨Samples.grown_discards [0, 2, 4],
    (Graph.Grown.doublyLinked_iff (Samples.grown_discards [0, 2, 4])).2.2.mpr (by decide)⟩

/-- The first block that is put in, behind the only statement, has no link back. -/
theorem Graph.not_doublyLinked_two_blocks :
    ∃ g, Graph.blockAt 0 1 (Samples.discards [0]) = .ok 1 g ∧ g.Built ∧
      g.blocksFrom 0 = [0, 1] ∧ (g.block 0).next = some 1 ∧ (g.block 1).prev = none ∧
      ¬ g.DoublyLinked := by
  have hlook : Graph.blockAt 0 1 (Samples.discards [0]) =
      .ok 1 ((Samples.discards [0]).insertBehind 0 1) := rfl
  refine ⟨_, hlook, (Samples.built_discards [0]).found (by decide) hlook, by decide, by decide,
    by decide, ?_⟩
  rintro ⟨-, hdouble⟩
  exact absurd (hdouble 0 (by decide) 1 (by decide)) (by decide)

end LinearScan
