import LinearScan.Proofs.Order
import LinearScan.Proofs.Seams
import Mathlib.Data.List.Pairwise

/-!
# What a cut in the middle of a block leaves behind

A cut at the last statement of a block keeps the code.  A cut further up leaves the statement
at the cut in both parts: the front part still runs into it, and the rear part starts with it.
No later change mends this, because only the links near the ends of blocks change.  So in a
program whose trees are reached once each, all cuts were at last statements.
-/

namespace LinearScan

/-- Two chains that start alike and have the same links up to a member agree up to it. -/
theorem Follows.exists_eq_append
    {next next' : Nat → Option Nat} {start : Option Nat} {i : Nat} {before after is : List Nat}
    (h : Follows next start (before ++ i :: after)) (h' : Follows next' start is)
    (heq : ∀ j ∈ before, next' j = next j) :
    ∃ after', is = before ++ i :: after' := by
  induction before generalizing start is with
  | nil =>
      cases is with
      | nil => exact absurd (h'.symm.trans h.1) (by simp)
      | cons j is =>
          obtain rfl : i = j := Option.some.inj (h.1.symm.trans h'.1)
          exact ⟨is, rfl⟩
  | cons k before ih =>
      cases is with
      | nil => exact absurd (h'.symm.trans h.1) (by simp)
      | cons j is =>
          obtain rfl : k = j := Option.some.inj (h.1.symm.trans h'.1)
          have hrest := h'.2
          rw [heq k (by simp)] at hrest
          obtain ⟨after', rfl⟩ := ih h.2 hrest fun m hm => heq m (by simp [hm])
          exact ⟨after', rfl⟩

namespace Graph

variable {g g' : Graph} {b c d : BlockId} {q s : StmtId} {offset : Int}

/-- The statement `q` is neither the last one of a block nor the one before it. -/
def Inner (g : Graph) (q : StmtId) : Prop :=
  ∀ d l : Nat, (g.block d).last = some l → l ≠ q ∧ (g.stmt l).prev ≠ some q

/-- No block notes `s` as its last statement. -/
def NeverLast (g : Graph) (s : StmtId) : Prop :=
  ∀ d : Nat, (g.block d).last ≠ some s

/-! ## What changes leave alone -/

/-- The change from `g` to `g'` keeps to the ends of blocks: statements further up stay
further up, and lead where they led. -/
structure KeepsInner (g g' : Graph) : Prop where
  linked : g'.Linked
  blockCount_le : g.blockCount ≤ g'.blockCount
  first_eq : ∀ b s : Nat, b < g.blockCount → (g.block b).first = some s → g.NeverLast s →
    (g'.block b).first = some s
  next_eq : ∀ q : Nat, q < g.stmtCount → g.Inner q → (g'.stmt q).next = (g.stmt q).next
  inner : ∀ q : Nat, q < g.stmtCount → g.Inner q → g'.Inner q
  neverLast : ∀ s : Nat, s < g.stmtCount → g.NeverLast s → g'.NeverLast s

theorem SameBlocks.keepsInner (h : g.SameBlocks g') (hlinked : g'.Linked) : g.KeepsInner g' where
  linked := hlinked
  blockCount_le := Nat.le_of_eq h.blockCount_eq.symm
  first_eq b s _ hfirst _ := by rw [h.block_eq, hfirst]
  next_eq q _ _ := by rw [h.stmt_eq]
  inner q _ hq d l hl := by
    rw [h.block_eq] at hl
    rw [h.stmt_eq]
    exact hq d l hl
  neverLast s _ hs d := by
    rw [h.block_eq]
    exact hs d

theorem Inner.splitBefore_ne (hq : g.Inner q) (b : BlockId) : g.splitBefore b ≠ some q := by
  intro hbefore
  obtain ⟨l, hl, hprev⟩ := Option.bind_eq_some_iff.mp hbefore
  exact (hq b l hl).2 hprev

theorem keepsInner_append (hg : g.Threaded) (b : BlockId) (offset : Int) (t : Tree) :
    g.KeepsInner (g.append b offset t) where
  linked := hg.linked.append b offset t
  blockCount_le := Nat.le_of_eq (g.append_blockCount b offset t).symm
  first_eq c s _ hfirst _ := by
    have hlast := @hg.last_of_first c
    rw [append_block]
    grind
  next_eq q hq hinner := by
    have hb := hinner b q
    rw [append_stmt]
    grind
  inner q hq hinner d l hl := by
    rw [append_block] at hl
    rw [append_stmt]
    have hd := hinner d l
    have hb := hinner b q
    grind
  neverLast s hs hnever d := by
    have hd := hnever d
    rw [append_block]
    grind

theorem keepsInner_insertBehind (hg : g.Linked) (b : BlockId) (offset : Int) :
    g.KeepsInner (g.insertBehind b offset) where
  linked := hg.insertBehind b offset
  blockCount_le := by simp
  first_eq c s hc hfirst _ := by
    rw [insertBehind_first, if_neg (Nat.ne_of_lt hc), hfirst]
  next_eq q _ _ := by rw [insertBehind_stmt]
  inner q _ hinner d l hl := by
    rw [insertBehind_last] at hl
    rw [insertBehind_stmt]
    split at hl
    · cases hl
    · exact hinner d l hl
  neverLast s _ hnever d := by
    have hd := hnever d
    rw [insertBehind_last]
    grind

theorem keepsInner_split (hg : g.Linked) (hb : b < g.blockCount) (hs : s < g.stmtCount)
    (offset : Int) : g.KeepsInner (g.split b s offset) where
  linked := hg.split offset hb hs
  blockCount_le := by simp
  first_eq c r hc hfirst hr := by
    rw [split_first _ _ _ _ _ (Nat.ne_of_lt hb)]
    have hlast := hr b
    grind
  next_eq q hq hinner := by
    have hbefore := hinner.splitBefore_ne b
    rw [split_stmt]
    grind
  inner q hq hinner d l hl := by
    have hbefore := hinner.splitBefore_ne b
    rw [split_last] at hl
    have hd := hinner d l
    have hb := hinner b l
    rw [split_stmt]
    grind
  neverLast r hr hnever d := by
    have hd := hnever d
    have hb := hnever b
    rw [split_last]
    grind

/-- What a look-up leaves alone. -/
theorem keepsInner_lookup (hg : g.Threaded) (h : blockAt 0 offset g = .ok b g') :
    g.KeepsInner g' := by
  rcases blockAt_cases h with ⟨-, rfl⟩ | ⟨c, -, -, rfl⟩ | ⟨c, s, hplace, -, rfl⟩
  · exact SameBlocks.keepsInner ⟨fun _ => rfl, rfl, fun _ => rfl, rfl⟩ hg.linked
  · exact keepsInner_insertBehind hg.linked c offset
  · obtain ⟨hc, hs⟩ := locate_spec hg.chained hplace
    exact keepsInner_split hg.linked hc (hg.linked.lt_of_mem_stmtsOf hs) offset

/-! ## Statements that two blocks have in common -/

/-- The block `b` runs into the statement `s`, and will always do so. -/
structure RunsInto (g : Graph) (b : BlockId) (s : StmtId) : Prop where
  lt : b < g.blockCount
  chain : ∃ front rest, g.stmtsOf b = front ++ s :: rest ∧ ∀ q ∈ front, g.Inner q
  neverLast : g.NeverLast s

theorem RunsInto.mem (h : g.RunsInto b s) : s ∈ g.stmtsOf b := by
  obtain ⟨front, rest, hstmts, -⟩ := h.chain
  simp [hstmts]

theorem KeepsInner.runsInto (h : g.KeepsInner g') (hg : g.Linked) (hb : g.RunsInto b s) :
    g'.RunsInto b s := by
  obtain ⟨front, rest, hstmts, hfront⟩ := hb.chain
  have hlt : ∀ r ∈ front ++ s :: rest, r < g.stmtCount :=
    fun r hr => hg.lt_of_mem_stmtsOf (hstmts ▸ hr)
  have hchain := (hg.stmtsOf_spec b).1
  have hchain' := (h.linked.stmtsOf_spec b).1
  rw [hstmts] at hchain
  -- The block still starts with the statement that it started with.
  have hfirst : (g'.block b).first = (g.block b).first := by
    cases front with
    | nil => rw [h.first_eq b s hb.lt hchain.1 hb.neverLast, hchain.1]
    | cons q front =>
        refine (h.first_eq b q hb.lt hchain.1 ?_).trans hchain.1.symm
        intro d hd
        exact (hfront q (by simp) d q hd).1 rfl
  rw [hfirst] at hchain'
  obtain ⟨rest', hstmts'⟩ := hchain.exists_eq_append hchain' fun q hq =>
    h.next_eq q (hlt q (by simp [hq])) (hfront q hq)
  refine ⟨Nat.lt_of_lt_of_le hb.lt h.blockCount_le, ⟨front, rest', hstmts', ?_⟩, ?_⟩
  · intro q hq
    exact h.inner q (hlt q (by simp [hq])) (hfront q hq)
  · exact h.neverLast s (hlt s (by simp)) hb.neverLast

/-- Two blocks run into the same statement, and will always do so. -/
def Torn (g : Graph) : Prop :=
  ∃ b c s, b ≠ c ∧ g.RunsInto b s ∧ g.RunsInto c s

theorem Torn.keeps (h : g.Torn) (hg : g.Linked) (hkeeps : g.KeepsInner g') : g'.Torn := by
  obtain ⟨b, c, s, hbc, hb, hc⟩ := h
  exact ⟨b, c, s, hbc, hkeeps.runsInto hg hb, hkeeps.runsInto hg hc⟩

/-- A cut above the last statement leaves the statement at the cut in both parts. -/
theorem torn_split (hg : g.Threaded) (he : g.Ended)
    (h : g.locate 0 offset = .ok (.within b s)) (hlast : (g.block b).last ≠ some s) :
    (g.split b s offset).Torn := by
  obtain ⟨hb, hs⟩ := locate_spec hg.chained h
  have hslt := hg.linked.lt_of_mem_stmtsOf hs
  have hbnew : b ≠ g.blockCount := Nat.ne_of_lt hb
  have hkeeps := keepsInner_split hg.linked hb hslt offset
  have hown : ∀ {d l : Nat}, (g.block d).last = some l → l ∈ g.stmtsOf d := by
    intro d l hl
    exact List.mem_of_getLast? ((he d).symm.trans hl)
  have hnever : g.NeverLast s := by
    intro d hd
    obtain rfl := he.eq_of_mem_stmtsOf hg.linked (hown hd) hs
    exact hlast hd
  obtain ⟨front, rest, hstmts⟩ := List.append_of_mem hs
  have hnodup : (front ++ s :: rest).Nodup := by
    rw [← hstmts]
    exact (hg.linked.stmtsOf_spec b).2.1.imp Nat.ne_of_lt
  have hrest : rest ≠ [] := by
    rintro rfl
    exact hlast (by rw [he b, hstmts, List.getLast?_concat])
  have hlong : ∀ q ∈ front, ∀ before after, g.stmtsOf b = before ++ q :: after →
      1 < after.length := by
    intro q hq before after hsplit
    obtain ⟨pre, post, rfl⟩ := List.append_of_mem hq
    rw [hstmts, List.append_assoc, List.cons_append] at hsplit
    rw [List.append_assoc, List.cons_append] at hnodup
    rw [← (eq_of_append_cons_eq hnodup hsplit).2]
    have hpos := List.length_pos_iff.mpr hrest
    simp only [List.length_append, List.length_cons]
    omega
  -- The statements in front of the cut are not at the end of their block, nor of another.
  have hfront : ∀ q ∈ front, g.Inner q := by
    intro q hq d l hl
    have hqb : q ∈ g.stmtsOf b := by simp [hstmts, hq]
    refine ⟨?_, ?_⟩
    · rintro rfl
      obtain rfl := he.eq_of_mem_stmtsOf hg.linked (hown hl) hqb
      obtain ⟨before, hend⟩ := List.getLast?_eq_some_iff.mp ((he d).symm.trans hl)
      exact absurd (hlong l hq before [] hend) (by simp)
    · intro hprev
      obtain ⟨before, hend⟩ := hg.stmtsOf_of_prev_last he hl hprev
      obtain rfl := he.eq_of_mem_stmtsOf hg.linked (show q ∈ g.stmtsOf d by simp [hend]) hqb
      exact absurd (hlong q hq before [l] hend) (by simp)
  refine ⟨b, g.blockCount, s, hbnew, ?_, ?_, ?_, ?_⟩
  · exact hkeeps.runsInto hg.linked ⟨hb, ⟨front, rest, hstmts, hfront⟩, hnever⟩
  · simp
  · have hchain := ((hg.linked.split offset hb hslt).stmtsOf_spec g.blockCount).1
    rw [split_first _ _ _ _ _ hbnew, if_neg hbnew.symm, if_pos rfl] at hchain
    cases hrear : (g.split b s offset).stmtsOf g.blockCount with
    | nil =>
        rw [hrear] at hchain
        cases hchain
    | cons r rear =>
        rw [hrear] at hchain
        obtain rfl : s = r := Option.some.inj hchain.1
        exact ⟨[], rear, rfl, by simp⟩
  · exact hkeeps.neverLast s hslt hnever

/-- In a torn graph a tree is reached twice. -/
theorem Torn.not_nodup (h : g.Torn) (hg : g.Chained 0) :
    ¬ ((g.treesFrom 0).map Tree.id).Nodup := by
  obtain ⟨b, c, s, hbc, hb, hc⟩ := h
  intro hnodup
  have hmem : ∀ {d : Nat}, g.RunsInto d s → (g.stmt s).tree ∈ g.treesOf d := by
    intro d hd
    exact List.mem_flatMap.mpr ⟨s, hd.mem, Tree.mem_postorder_self _⟩
  have hdisjoint := (List.nodup_flatMap.mp hnodup.of_map).2
  have : Std.Symm (Function.onFun List.Disjoint g.treesOf) := ⟨fun _ _ h _ hx hy => h hy hx⟩
  exact hdisjoint.forall ((hg.mem_iff b).mpr hb.lt) ((hg.mem_iff c).mpr hc.lt) hbc
    (hmem hb) (hmem hc)

end Graph
end LinearScan
