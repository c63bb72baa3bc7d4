import LinearScan.Proofs.Acceptance
import LinearScan.Proofs.JumpFree

/-!
# Values that are left on the stack

Behind a statement nothing may be left on the stack.  The importer makes sure of that behind
stores, discards, jumps and branches, but not behind returns.  A program without jumps is read
if and only if it passes these checks, finds the values it takes and ends with a return.  The
values that are left behind its returns are lost, or taken by statements of other blocks.
-/

namespace LinearScan

/-- The program ends with a return, every instruction finds the values that it takes, and the
stack is empty behind each instruction with an opcode in `clears`. -/
structure Program.Balanced (p : Program) (clears : Opcode → Bool) : Prop where
  last_ret : (p.instrs.getLast?).any (fun instr => instr.opcode == .ret) = true
  takes_le : ∀ x ∈ p.instrs.zipIdx, x.1.opcode.takes ≤ depth (p.instrs.take x.2)
  depth_eq : ∀ x ∈ p.instrs.zipIdx, clears x.1.opcode = true → depth (p.instrs.take (x.2 + 1)) = 0

instance (p : Program) (clears : Opcode → Bool) : Decidable (p.Balanced clears) :=
  decidable_of_iff
    ((p.instrs.getLast?).any (fun instr => instr.opcode == .ret) = true ∧
      (∀ x ∈ p.instrs.zipIdx, x.1.opcode.takes ≤ depth (p.instrs.take x.2)) ∧
      ∀ x ∈ p.instrs.zipIdx, clears x.1.opcode = true → depth (p.instrs.take (x.2 + 1)) = 0)
    ⟨fun ⟨last, takes, clear⟩ => ⟨last, takes, clear⟩,
      fun h => ⟨h.last_ret, h.takes_le, h.depth_eq⟩⟩

/-- No tree that was made for a program is lost, and none stands in another block than the one
it was made for. -/
structure Imported.KeepsTrees (m : Imported) (p : Program) : Prop where
  length_eq : (m.ir.trees m.graph).length = (p.instrs.filter (·.opcode.isKnown)).length
  block_eq : ∀ b ∈ m.ir.blocks m.graph, ∀ t ∈ m.graph.treesOf b, t.block = b

/-- From the instruction at `i` on, the stack is empty behind every return. -/
def RetsEmptyFrom (code : List Instr) (i : Nat) : Prop :=
  ∀ (j : Nat) (instr : Instr), i ≤ j → code[j]? = some instr → instr.opcode = .ret →
    depth (code.take (j + 1)) = 0

section Rets

variable {code : List Instr} {i : Nat} {instr : Instr}

theorem retsEmptyFrom_of_length_le (h : code.length ≤ i) : RetsEmptyFrom code i := by
  intro j instr hij hinstr
  rw [List.getElem?_eq_none (Nat.le_trans h hij)] at hinstr
  cases hinstr

theorem retsEmptyFrom_iff (hinstr : code[i]? = some instr) :
    RetsEmptyFrom code i ↔
      (instr.opcode = .ret → depth (code.take (i + 1)) = 0) ∧ RetsEmptyFrom code (i + 1) := by
  constructor
  · intro h
    exact ⟨h i instr (Nat.le_refl i) hinstr, fun j instr' hj => h j instr' (Nat.le_of_succ_le hj)⟩
  · rintro ⟨hfirst, hlater⟩ j instr' hij hinstr'
    rcases Nat.eq_or_lt_of_le hij with rfl | hlt
    · obtain rfl := Option.some.inj (hinstr.symm.trans hinstr')
      exact hfirst
    · exact hlater j instr' hlt hinstr'

/-- The returns are the only ends of statements that are not checked. -/
theorem Program.balanced_endsStatement_iff {p : Program} (hp : p.Balanced Opcode.checksStack) :
    p.Balanced Opcode.endsStatement ↔ RetsEmptyFrom p.instrs 0 := by
  constructor
  · intro h j instr _ hinstr hop
    exact h.depth_eq (instr, j) (List.mk_mem_zipIdx_iff_getElem?.mpr hinstr) (by rw [hop]; rfl)
  · intro h
    refine ⟨hp.last_ret, hp.takes_le, ?_⟩
    intro x hx hends
    have hinstr := List.mk_mem_zipIdx_iff_getElem?.mp hx
    by_cases hret : x.1.opcode = .ret
    · exact h x.2 x.1 (Nat.zero_le _) hinstr hret
    · refine hp.depth_eq x hx ?_
      cases hop : x.1.opcode <;> simp_all [Opcode.endsStatement, Opcode.checksStack]

end Rets

namespace Importer

variable {s s' : Importer} {i n : Nat} {isLast : Bool} {kind : TreeKind} {operands : List Operand}
  {instr : Instr} {code rest : List Instr}

/-! ## How high the stack gets -/

/-- What was read is balanced, from the instruction at `i` on. -/
theorem run_balanced (hrest : code.drop i = rest)
    (hheight : (s.stack.length : Int) = depth (code.take i)) (h : s.run i rest = .ok s') :
    (rest ≠ [] → (code.getLast?).any (fun instr => instr.opcode.leaves) = true) ∧
      ∀ (j : Nat) (instr : Instr), i ≤ j → code[j]? = some instr →
        instr.opcode.takes ≤ depth (code.take j) ∧
          (instr.opcode.checksStack = true → depth (code.take (j + 1)) = 0) := by
  induction rest generalizing i s with
  | nil =>
      refine ⟨fun hne => absurd rfl hne, ?_⟩
      intro j instr hij hinstr
      have hlength := List.drop_eq_nil_iff.mp hrest
      rw [List.getElem?_eq_none (Nat.le_trans hlength hij)] at hinstr
      cases hinstr
  | cons instr rest ih =>
      obtain ⟨hinstr, hdrop⟩ := drop_cases hrest
      obtain ⟨s₁, hstep, hrun⟩ := exists_of_bind_eq_ok h
      obtain ⟨htakes, -, hempty, hlast⟩ := step_height hstep
      have hheight₁ := step_depth hinstr hheight hstep
      obtain ⟨hend, hlater⟩ := ih hdrop hheight₁ hrun
      refine ⟨fun _ => ?_, ?_⟩
      · cases rest with
        | nil =>
            rw [getLast?_of_drop hrest, Option.any_some, hlast rfl]
        | cons next rest => exact hend (List.cons_ne_nil next rest)
      · intro j instr' hij hinstr'
        rcases Nat.eq_or_lt_of_le hij with rfl | hlt
        · rw [hinstr] at hinstr'
          obtain rfl := Option.some.inj hinstr'
          refine ⟨by rw [← hheight]; exact Int.ofNat_le.mpr htakes, ?_⟩
          intro hchecks
          rw [← hheight₁, hempty hchecks]
          rfl
        · exact hlater j instr' hlt hinstr'

end Importer

/-- A program without instructions is refused. -/
theorem Program.instrs_ne_nil {p : Program} {m : Imported} (h : p.import? = .ok m) :
    p.instrs ≠ [] := by
  obtain ⟨locals, instrs⟩ := p
  rintro rfl
  cases h

/-- What is read is balanced. -/
theorem Program.JumpFree.balanced {p : Program} {m : Imported} (hp : p.JumpFree)
    (h : p.import? = .ok m) : p.Balanced Opcode.checksStack := by
  obtain ⟨s, n, hrun, -⟩ := Program.import?_cases h
  obtain ⟨hlast, hfits⟩ := Importer.run_balanced List.drop_zero rfl hrun
  refine ⟨?_, ?_, ?_⟩
  · have hleaves := hlast (Program.instrs_ne_nil h)
    cases hinstr : p.instrs.getLast? with
    | none =>
        rw [hinstr] at hleaves
        cases hleaves
    | some instr =>
        obtain ⟨hjmp, hbranch⟩ := hp instr (List.mem_of_getLast? hinstr)
        cases hop : instr.opcode <;> simp_all [Opcode.leaves]
  · intro x hx
    exact (hfits x.2 x.1 (Nat.zero_le _) (List.mk_mem_zipIdx_iff_getElem?.mp hx)).1
  · intro x hx
    exact (hfits x.2 x.1 (Nat.zero_le _) (List.mk_mem_zipIdx_iff_getElem?.mp hx)).2

/-! ## Where the trees go -/

/-- The trees of the statements of a span. -/
def Span.trees (r : Span) : List Tree :=
  r.entries.flatMap fun y => y.2.postorder

theorem Graph.trees_span (g : Graph) (b : BlockId) : (g.span b).trees = g.treesOf b := by
  rw [Graph.treesOf_eq_flatMap_entries]
  rfl

theorem Shows.treesFrom_eq {g : Graph} {current : BlockId} {done ahead : List Span} {cur : Span}
    (h : Shows g current done cur ahead) :
    g.treesFrom 0 = (done ++ cur :: ahead).flatMap Span.trees := by
  rw [← h.map_chain, List.flatMap_map, Graph.treesFrom]
  simp only [Graph.trees_span]

/-- All trees that stand in a block were made for it. -/
def Graph.Native (g : Graph) : Prop :=
  ∀ b < g.blockCount, ∀ t ∈ g.treesOf b, t.block = b

namespace Graph

variable {g g' : Graph}

theorem SameBlocks.native_iff (h : g.SameBlocks g') : g'.Native ↔ g.Native := by
  simp only [Native, h.blockCount_eq, treesOf_eq_flatMap_entries, h.entries_eq]

/-- A statement of trees that were made for its block. -/
theorem native_append (he : g.Ended) (hg : g.Linked) {b : BlockId} (hb : b < g.blockCount)
    (offset : Int) (t : Tree) :
    (g.append b offset t).Native ↔ g.Native ∧ ∀ u ∈ t.postorder, u.block = b := by
  have htrees : ∀ c, (g.append b offset t).treesOf c =
      if c = b then g.treesOf b ++ t.postorder else g.treesOf c := by
    intro c
    simp only [treesOf_eq_flatMap_entries, entries_append he hg]
    split
    · simp
    · rfl
  simp only [Native, append_blockCount, htrees]
  constructor
  · intro h
    refine ⟨?_, ?_⟩
    · intro c hc u hu
      refine h c hc u ?_
      split
      · next hcb =>
          subst hcb
          exact List.mem_append_left _ hu
      · exact hu
    · intro u hu
      refine h b hb u ?_
      rw [if_pos rfl]
      exact List.mem_append_right _ hu
  · rintro ⟨hold, hnew⟩ c hc u hu
    split at hu
    · next hcb =>
        subst hcb
        exact (List.mem_append.mp hu).elim (hold c hc u) (hnew u)
    · exact hold c hc u hu

/-- An empty block holds no trees. -/
theorem native_insertBehind (b : BlockId) (offset : Int) :
    (g.insertBehind b offset).Native ↔ g.Native := by
  have htrees : ∀ c, (g.insertBehind b offset).treesOf c =
      if c = g.blockCount then [] else g.treesOf c := by
    intro c
    simp only [treesOf_eq_flatMap_entries, entries_insertBehind]
    split <;> rfl
  simp only [Native, insertBehind_blockCount, htrees]
  constructor
  · intro h c hc u hu
    refine h c (Nat.lt_succ_of_lt hc) u ?_
    rwa [if_neg (Nat.ne_of_lt hc)]
  · intro h c hc u hu
    split at hu
    · cases hu
    · next hne => exact h c (Nat.lt_of_le_of_ne (Nat.le_of_lt_succ hc) hne) u hu

end Graph

namespace Importer

variable {s s' : Importer} {i n : Nat} {isLast : Bool} {kind : TreeKind} {operands : List Operand}
  {instr : Instr} {code rest : List Instr} {done : List Span} {cur : Span}

/-- The trees on the stack, with all that is below them. -/
def held (s : Importer) : List Tree :=
  s.stack.flatMap Tree.postorder

/-- All trees were made for the block in which they stand, or for the current block if they are
still on the stack. -/
def Native (s : Importer) : Prop :=
  s.graph.Native ∧ ∀ t ∈ s.held, t.block = s.block

theorem held_eq_nil_iff : s.held = [] ↔ s.stack = [] := by
  rw [held, List.flatMap_eq_nil_iff]
  constructor
  · intro h
    refine List.eq_nil_iff_forall_not_mem.mpr fun t ht => ?_
    exact List.ne_nil_of_mem t.mem_postorder_self (h t ht)
  · intro h
    rw [h]
    exact fun t ht => absurd ht List.not_mem_nil

/-- The new tree holds what it was folded from. -/
theorem fold_held (h : s.fold n kind operands = .ok s') :
    ∃ t : Tree, t.block = s.block ∧ t.operands = operands ∧ s'.held.Perm (t :: s.held) := by
  obtain ⟨-, rfl⟩ := fold_cases h
  exact ⟨_, rfl, rfl,
    Graph.Planted.postorder_newTree_perm s.graph kind operands s.block s.stack n⟩

/-- The trees of the chain, and those that are still on the stack. -/
def made (s : Importer) : List Tree :=
  s.graph.treesFrom 0 ++ s.held

/-- How the importer stands before the instruction at `i` of a program without jumps: the
current block ends the chain, and all others are closed. -/
structure Trailing (i : Nat) (s : Importer) (done : List Span) (cur : Span) : Prop where
  shows : Shows s.graph s.block done cur []
  rising : (done ++ [cur]).Pairwise fun r q => r.offset < q.offset
  first_eq : s.first = 0
  start_le : s.start ≤ i
  current_le : cur.offset ≤ i
  placed : ∀ y ∈ cur.entries, y.1 < (i : Int)
  closed : ∀ r ∈ done, r.Closed
  block_lt : ∀ t ∈ s.stack, t.block < s.graph.blockCount

namespace Trailing

section

variable (h : Trailing i s done cur)
include h

theorem current_lt : s.block < s.graph.blockCount := by
  obtain ⟨before, after, hchain, -⟩ := h.shows.chain
  refine (h.shows.grown.threaded.chained.mem_iff s.block).mp ?_
  rw [hchain]
  simp

theorem succ : Trailing (i + 1) s done cur := by
  refine { h with start_le := ?_, current_le := ?_, placed := ?_ }
  · exact Nat.le_succ_of_le h.start_le
  · have hle := h.current_le
    omega
  · intro y hy
    have hlt := h.placed y hy
    omega

/-- A new tree is made for the current block. -/
theorem fold (hfold : s.fold n kind operands = .ok s') :
    Trailing i s' done cur ∧ (s'.Native ↔ s.Native) ∧ s'.made.length = s.made.length + 1 := by
  obtain ⟨t, ht, -, hheld⟩ := fold_held hfold
  have hlt := h.current_lt
  obtain ⟨-, rfl⟩ := fold_cases hfold
  have hsame := s.graph.sameBlocks_newTree kind operands s.block (s.stack.take n).reverse
  have hshows := h.shows.congr hsame
    (h.shows.grown.tree kind operands s.block (s.stack.take n).reverse)
  refine ⟨{ h with shows := hshows, block_lt := ?_ }, ?_, ?_⟩
  · intro u hu
    rw [hsame.blockCount_eq]
    rcases List.mem_cons.mp hu with rfl | hu
    · exact hlt
    · exact h.block_lt u (List.mem_of_mem_drop hu)
  · refine and_congr hsame.native_iff ?_
    simp only [hheld.mem_iff, List.mem_cons, forall_eq_or_imp]
    exact and_iff_right ht
  · rw [made, made, hshows.treesFrom_eq, h.shows.treesFrom_eq, List.length_append,
      List.length_append, hheld.length_eq, List.length_cons, Nat.add_assoc]

/-- The statement that ends takes its tree off the stack. -/
theorem finish {t : Tree} {rest : List Tree} (hstack : s.stack = t :: rest) :
    Trailing (i + 1) (s.finish i) done (cur.push s.start t) ∧
      ((s.finish i).Native ↔ s.Native) ∧ (s.finish i).made = s.made := by
  have hshows := h.shows.append s.start t
  have hfinish : s.finish i = { s with
      graph := s.graph.append s.block s.start t, stack := rest, start := i + 1 } := by
    rw [Importer.finish, hstack]
  have hheld : s.held = t.postorder ++ (s.finish i).held := by
    rw [hfinish, held, hstack, held, List.flatMap_cons]
  have hlinked := h.shows.grown.threaded.linked
  refine ⟨?_, ?_, ?_⟩
  · rw [hfinish]
    refine {
      shows := hshows
      rising := ?_
      first_eq := h.first_eq
      start_le := Nat.le_refl _
      current_le := h.succ.current_le
      placed := ?_
      closed := h.closed
      block_lt := ?_ }
    · have hrising := h.rising
      rw [List.pairwise_append] at hrising ⊢
      exact ⟨hrising.1, List.pairwise_singleton _ _, fun r hr q hq =>
        List.mem_singleton.mp hq ▸ hrising.2.2 r hr cur (List.mem_singleton_self cur)⟩
    · intro y hy
      rcases List.mem_append.mp hy with hy | hy
      · exact h.succ.placed y hy
      · obtain rfl := List.mem_singleton.mp hy
        have hstart := h.start_le
        push_cast
        omega
    · intro u hu
      rw [Graph.append_blockCount]
      exact h.block_lt u (hstack ▸ List.mem_cons_of_mem t hu)
  · rw [Native, Native, hheld, hfinish, Graph.native_append h.shows.ended hlinked h.current_lt]
    simp only [List.mem_append, or_imp, forall_and, and_assoc]
  · rw [made, made, hheld, ← List.append_assoc, hfinish, hshows.treesFrom_eq,
      h.shows.treesFrom_eq]
    simp [Span.trees, Span.push]

end

/-- Behind a block that was left a new one is put at the end of the chain.  The trees that are
still on the stack were made for another block. -/
theorem leave (h : Trailing (i + 1) s done cur) (hle : cur.offset ≤ i) (hclosed : cur.Closed) :
    ∃ s' next, s.leave i false = .ok s' ∧ Trailing (i + 1) s' (done ++ [cur]) next ∧
      (s'.Native ↔ s.Native ∧ s.stack = []) ∧ s'.made = s.made := by
  have hlt : cur.offset < (i + 1 : Nat) := by omega
  have hne : cur.entries ≠ [] := by
    obtain ⟨before, y, hentries, -⟩ := hclosed
    simp [hentries]
  obtain ⟨hlook, hshows⟩ :=
    h.shows.blockAt_behind h.rising (Int.natCast_nonneg _) hlt (by simp) hne h.placed
  have hrising : (done ++ [cur, ⟨(i + 1 : Nat), []⟩]).Pairwise fun r q : Span =>
      r.offset < q.offset := by
    have hold := h.rising
    rw [List.pairwise_append] at hold ⊢
    refine ⟨hold.1, List.pairwise_pair.mpr hlt, ?_⟩
    intro r hr q hq
    have hrcur := hold.2.2 r hr cur (List.mem_singleton_self cur)
    rcases List.mem_pair.mp hq with rfl | rfl
    · exact hrcur
    · exact Int.lt_trans hrcur hlt
  refine ⟨{ s with
    graph := s.graph.insertBehind s.block (i + 1 : Nat), block := s.graph.blockCount },
    ⟨(i + 1 : Nat), []⟩, ?_, ?_, ?_, ?_⟩
  · simp only [Importer.leave, Importer.target, h.first_eq, hlook]
    rfl
  · refine {
      shows := hshows.advance hrising ?_ ?_
      rising := by rwa [List.append_assoc]
      first_eq := h.first_eq
      start_le := h.start_le
      current_le := Int.le_refl _
      placed := by simp
      closed := ?_
      block_lt := ?_ }
    · rw [Graph.insertBehind_blockCount]
      exact Nat.lt_succ_self _
    · rw [Graph.insertBehind_offset, if_pos rfl]
    · intro r hr
      rcases List.mem_append.mp hr with hr | hr
      · exact h.closed r hr
      · exact List.mem_singleton.mp hr ▸ hclosed
    · intro t ht
      rw [Graph.insertBehind_blockCount]
      exact Nat.lt_succ_of_lt (h.block_lt t ht)
  -- No tree that is on the stack was made for the block that is new.
  · have hfresh : (∀ t ∈ s.held, t.block = s.graph.blockCount) ↔ s.stack = [] := by
      constructor
      · intro hblock
        refine List.eq_nil_iff_forall_not_mem.mpr fun t ht => ?_
        have heq := hblock t (List.mem_flatMap.mpr ⟨t, ht, t.mem_postorder_self⟩)
        exact absurd (h.block_lt t ht) (heq ▸ Nat.lt_irrefl _)
      · intro hnil
        simp [held, hnil]
    refine (and_congr (Graph.native_insertBehind s.block _) hfresh).trans ?_
    rw [Native, and_assoc]
    refine and_congr_right fun _ => (and_iff_right_of_imp ?_).symm
    intro hnil
    simp [held, hnil]
  · rw [made, made, hshows.treesFrom_eq, h.shows.treesFrom_eq]
    simp [Span.trees, held]

section

variable (h : Trailing i s done cur) (hn : n ≤ s.stack.length) (kind : TreeKind)
  (operands : List Operand)
include h hn

/-- An instruction that puts a value on the stack. -/
theorem value :
    ∃ s', s.fold n kind operands = .ok s' ∧ Trailing (i + 1) s' done cur ∧
      (s'.Native ↔ s.Native) ∧ s'.made.length = s.made.length + 1 := by
  obtain ⟨s', hfold⟩ := exists_fold hn kind operands
  obtain ⟨h', hnative, hmade⟩ := h.fold hfold
  exact ⟨s', hfold, h'.succ, hnative, hmade⟩

/-- An instruction that ends a statement. -/
theorem statement :
    ∃ s₁ t, s.fold n kind operands = .ok s₁ ∧ t.operands = operands ∧
      Trailing (i + 1) (s₁.finish i) done (cur.push s.start t) ∧
      ((s₁.finish i).Native ↔ s.Native) ∧ (s₁.finish i).made.length = s.made.length + 1 := by
  obtain ⟨s₁, hfold⟩ := exists_fold hn kind operands
  obtain ⟨h₁, hnative, hmade⟩ := h.fold hfold
  obtain ⟨-, rfl⟩ := fold_cases hfold
  obtain ⟨h₂, hnative₂, hmade₂⟩ := h₁.finish rfl
  exact ⟨_, _, hfold, rfl, h₂, hnative₂.trans hnative, by rw [hmade₂, hmade]⟩

end

/-- The statement is a store. -/
theorem noteStore (h : Trailing (i + 1) (s.finish i) done cur) :
    Trailing (i + 1) ((s.noteStore i).finish i) done cur ∧
      (((s.noteStore i).finish i).Native ↔ (s.finish i).Native) ∧
      ((s.noteStore i).finish i).made = (s.finish i).made := by
  rw [Importer.noteStore]
  cases hstack : s.stack with
  | nil => exact ⟨h, Iff.rfl, rfl⟩
  | cons t rest =>
      simp only [Importer.finish, hstack] at h ⊢
      exact ⟨{ h with }, Iff.rfl, rfl⟩

/-- Reading one instruction. -/
theorem step (h : Trailing i s done cur) (hjump : instr.opcode ≠ .jmp ∧ instr.opcode ≠ .branch)
    (htakes : instr.opcode.takes ≤ s.stack.length)
    (hempty : instr.opcode.checksStack = true →
      (s.stack.length : Int) + instr.opcode.balance = 0)
    (hlast : isLast = true → instr.opcode = .ret) :
    ∃ s' done' cur', s.step i isLast instr = .ok s' ∧ Trailing (i + 1) s' done' cur' ∧
      (isLast = true → cur'.Closed) ∧
      s'.made.length = s.made.length + (if instr.opcode.isKnown then 1 else 0) ∧
      (s'.Native ↔ s.Native ∧ (isLast = false → instr.opcode = .ret → s'.stack = [])) := by
  have hstay : instr.opcode ≠ .ret → isLast = false := by
    intro hne
    exact Bool.eq_false_iff.mpr fun htrue => hne (hlast htrue)
  cases hop : instr.opcode with
  | jmp => exact absurd hop hjump.1
  | branch => exact absurd hop hjump.2
  | other name =>
      obtain rfl := hstay (by simp [hop])
      exact ⟨s, done, cur, (Stepped.other hop).step_eq, h.succ, by simp, by simp [Opcode.isKnown],
        by simp⟩
  | ldLocal | push | binary op =>
      obtain rfl := hstay (by simp [hop])
      obtain ⟨kind, operands, hcomputes⟩ :=
        @exists_computes instr (by rw [hop]; rfl) (by rw [hop]; rfl)
      obtain ⟨s', hfold, h', hnative, hmade⟩ := h.value htakes kind operands
      exact ⟨s', done, cur, (Stepped.value hcomputes hfold).step_eq, h', by simp,
        by simp [hmade, Opcode.isKnown], by simp [hnative]⟩
  | stLocal =>
      obtain rfl := hstay (by simp [hop])
      rw [hop] at htakes hempty
      obtain ⟨s₁, t, hfold, -, h₁, hnative₁, hmade₁⟩ :=
        h.statement htakes .stLocal (instr.operands.map .literal)
      obtain ⟨h', hnative, hmade⟩ := h₁.noteStore
      have hstack : ((s₁.noteStore i).finish i).stack = [] := by
        rw [finish_noteStore_stack]
        exact finish_stack_eq_nil hfold (hempty rfl)
      refine ⟨_, done, _, (Stepped.stLocal hop hfold hstack).step_eq, h', by simp, ?_,
        by simp [hnative, hnative₁]⟩
      rw [hmade, hmade₁]
      rfl
  | pop =>
      obtain rfl := hstay (by simp [hop])
      rw [hop] at htakes hempty
      obtain ⟨s₁, t, hfold, -, h', hnative, hmade⟩ := h.statement htakes .discard []
      have hstack := finish_stack_eq_nil hfold (hempty rfl) (i := i)
      exact ⟨_, done, _, (Stepped.pop hop hfold hstack).step_eq, h', by simp, by rw [hmade]; rfl,
        by simp [hnative]⟩
  | ret =>
      rw [hop] at htakes
      obtain ⟨s₁, t, hfold, hoperands, h₁, hnative, hmade⟩ := h.statement htakes .ret []
      have hclosed : (cur.push s.start t).Closed :=
        ⟨cur.entries, _, rfl, by simp [hoperands]⟩
      cases isLast with
      | true =>
          exact ⟨s₁.finish i, done, _, (Stepped.ret hop hfold rfl).step_eq, h₁, fun _ => hclosed,
            by rw [hmade]; rfl, by simp [hnative]⟩
      | false =>
          obtain ⟨s', next, hleave, h', hnative', hmade'⟩ := h₁.leave h.current_le hclosed
          refine ⟨s', _, next, (Stepped.ret hop hfold hleave).step_eq, h', by simp,
            by rw [hmade', hmade]; rfl, ?_⟩
          rw [hnative', hnative, leave_stack hleave]
          simp

theorem finished (h : Trailing i s done cur) (hclosed : cur.Closed) : Finished s.graph := by
  refine ⟨h.shows.ended, ?_⟩
  intro b hb
  have hmem : s.graph.span b ∈ done ++ [cur] := h.shows.map_chain ▸ List.mem_map_of_mem hb
  rcases List.mem_append.mp hmem with hmem | hmem
  · exact h.closed _ hmem
  · exact List.mem_singleton.mp hmem ▸ hclosed

/-- A balanced program is read to its end.  All trees are kept if and only if nothing is left
behind a return. -/
theorem run {p : Program} (h : Trailing i s done cur) (hp : p.Balanced Opcode.checksStack)
    (hjump : p.JumpFree) (hheight : (s.stack.length : Int) = depth (p.instrs.take i))
    (hrest : p.instrs.drop i = rest) (hne : rest ≠ []) :
    ∃ s', s.run i rest = .ok s' ∧ Finished s'.graph ∧
      s'.made.length = s.made.length + (rest.filter (·.opcode.isKnown)).length ∧
      (s'.Native ∧ s'.stack = [] ↔ s.Native ∧ RetsEmptyFrom p.instrs i) := by
  induction rest generalizing i s done cur with
  | nil => exact absurd rfl hne
  | cons instr rest ih =>
      obtain ⟨hinstr, hdrop⟩ := drop_cases hrest
      have hmem := List.mk_mem_zipIdx_iff_getElem?.mpr hinstr
      have htakes := hp.takes_le _ hmem
      have hempty := hp.depth_eq _ hmem
      rw [← hheight] at htakes
      rw [depth_take_succ hinstr, ← hheight] at hempty
      have hlast : rest.isEmpty = true → instr.opcode = .ret := by
        intro hnil
        rw [List.isEmpty_iff.mp hnil] at hrest
        have hret := hp.last_ret
        rw [getLast?_of_drop hrest] at hret
        exact of_decide_eq_true hret
      obtain ⟨s₁, done₁, cur₁, hstep, h₁, hclosed, hmade, hnative⟩ :=
        h.step (hjump instr (List.mem_of_getElem? hinstr)) (Int.ofNat_le.mp htakes) hempty hlast
      have hheight₁ := step_depth hinstr hheight hstep
      have hstack : s₁.stack = [] ↔ depth (p.instrs.take (i + 1)) = 0 := by
        rw [← hheight₁, ← List.length_eq_zero_iff]
        omega
      have hrun : s.run i (instr :: rest) = s₁.run (i + 1) rest := by
        rw [Importer.run, hstep, ok_bind]
      have hcount : ((instr :: rest).filter (·.opcode.isKnown)).length =
          (if instr.opcode.isKnown then 1 else 0) + (rest.filter (·.opcode.isKnown)).length := by
        rw [List.filter_cons]
        split
        · rw [List.length_cons, Nat.add_comm]
        · rw [Nat.zero_add]
      rw [hrun, hcount, ← Nat.add_assoc, ← hmade, retsEmptyFrom_iff hinstr, ← hstack]
      cases rest with
      | nil =>
          -- The last return does not go on with a new block; what it leaves stays on the stack.
          refine ⟨s₁, rfl, h₁.finished (hclosed rfl), by simp, ?_⟩
          have hend := retsEmptyFrom_of_length_le (List.drop_eq_nil_iff.mp hdrop)
          have hret := hlast rfl
          simp [hnative, hend, hret]
      | cons next rest =>
          obtain ⟨s', hrun', hfinished, hmade', hnative'⟩ :=
            ih h₁ hheight₁ hdrop (List.cons_ne_nil next rest)
          refine ⟨s', hrun', hfinished, hmade', ?_⟩
          rw [hnative', hnative]
          simp [and_assoc]

/-- Nothing was read yet. -/
theorem start : Trailing 0 .fresh [] ⟨0, []⟩ := by
  have hstart := Underway.start []
  exact {
    shows := hstart.shows
    rising := List.pairwise_singleton _ _
    first_eq := rfl
    start_le := Nat.le_refl 0
    current_le := Int.le_refl 0
    placed := by simp
    closed := by simp
    block_lt := by simp [Importer.fresh] }

end Trailing

theorem native_start : Native .fresh := by
  rw [Importer.fresh]
  refine ⟨?_, by simp [held]⟩
  intro b _ t ht
  rw [Graph.treesOf, Graph.stmtsOf_eq_nil (by rw [Graph.block_newChain])] at ht
  cases ht

theorem made_start : made .fresh = [] := by
  rw [made, Trailing.start.shows.treesFrom_eq]
  rfl

/-- Nothing is on the stack if and only if all trees stand in the chain. -/
theorem length_made_iff : (s.graph.treesFrom 0).length = s.made.length ↔ s.stack = [] := by
  rw [← held_eq_nil_iff, made, List.length_append, ← List.length_eq_zero_iff]
  omega

end Importer

/-! ## Programs without jumps -/

theorem Program.Balanced.instrs_ne_nil {p : Program} {clears : Opcode → Bool}
    (h : p.Balanced clears) : p.instrs ≠ [] := by
  intro hnil
  have hlast := h.last_ret
  rw [hnil] at hlast
  cases hlast

/-- A balanced program is read to its end. -/
theorem Program.Balanced.exists_run {p : Program} (h : p.Balanced Opcode.checksStack)
    (hp : p.JumpFree) :
    ∃ s, Importer.run 0 p.instrs .fresh =
        .ok s ∧ Finished s.graph ∧
      s.made.length = (p.instrs.filter (·.opcode.isKnown)).length ∧
      (s.Native ∧ s.stack = [] ↔ p.Balanced Opcode.endsStatement) := by
  obtain ⟨s, hrun, hfinished, hmade, hnative⟩ :=
    Importer.Trailing.start.run h hp rfl List.drop_zero h.instrs_ne_nil
  rw [Importer.made_start, List.length_nil, Nat.zero_add] at hmade
  rw [and_iff_right Importer.native_start, ← balanced_endsStatement_iff h] at hnative
  exact ⟨s, hrun, hfinished, hmade, hnative⟩

/-- All trees are kept if and only if they are native and none is on the stack. -/
theorem Program.keepsTrees_iff {p : Program} {m : Imported} {s : Importer}
    (h : p.import? = .ok m)
    (hrun : Importer.run 0 p.instrs .fresh =
      .ok s)
    (hmade : s.made.length = (p.instrs.filter (·.opcode.isKnown)).length) :
    m.KeepsTrees p ↔ s.Native ∧ s.stack = [] := by
  obtain ⟨s', n, hrun', hwf, hgraph, hir, -⟩ := Program.import?_cases h
  obtain rfl : s = s' := Except.ok.inj (hrun.symm.trans hrun')
  have htrees : m.ir.trees m.graph = s.graph.treesFrom 0 := by
    rw [Ir.trees, hir, hgraph]
  have hblocks : ∀ b, b ∈ m.ir.blocks m.graph ↔ b < s.graph.blockCount := by
    intro b
    rw [Ir.blocks, hir, hgraph, ← hwf.chained.mem_iff, hwf.first_eq]
  constructor
  · rintro ⟨hlength, hblock⟩
    rw [htrees, ← hmade, Importer.length_made_iff] at hlength
    refine ⟨⟨fun b hb t ht => ?_, by simp [Importer.held, hlength]⟩, hlength⟩
    exact hblock b ((hblocks b).mpr hb) t (hgraph ▸ ht)
  · rintro ⟨⟨hnative, -⟩, hstack⟩
    refine ⟨?_, fun b hb t ht => ?_⟩
    · rw [htrees, ← hmade, Importer.length_made_iff]
      exact hstack
    · exact hnative b ((hblocks b).mp hb) t (hgraph ▸ ht)

/-- A program without jumps is read if and only if it ends with a return, finds all the values
it takes, and leaves none behind the statements that are checked.  All its trees are kept, in
the blocks they were made for, if and only if it leaves none behind its returns either. -/
theorem Program.import?_returns_iff_balanced {p : Program} (hp : p.JumpFree) :
    ((∃ m, p.import? = .ok m) ↔ p.Balanced Opcode.checksStack) ∧
      ∀ m, p.import? = .ok m → (m.KeepsTrees p ↔ p.Balanced Opcode.endsStatement) := by
  refine ⟨⟨fun ⟨m, hm⟩ => hp.balanced hm, ?_⟩, ?_⟩
  · intro hbalanced
    obtain ⟨s, hrun, ⟨hended, hclosed⟩, -⟩ := hbalanced.exists_run hp
    obtain ⟨n, hpred⟩ := notePredecessors_returns hended hclosed Notes.Fresh.empty
    have hpred' : (⟨0, p.locals, 0⟩ : Ir).recomputePredecessors s.graph {} = .ok () n := hpred
    rw [Program.import?_eq, hrun, ok_bind, hpred']
    exact ⟨_, rfl⟩
  · intro m hm
    obtain ⟨s, hrun, -, hmade, hnative⟩ := (hp.balanced hm).exists_run hp
    exact (Program.keepsTrees_iff hm hrun hmade).trans hnative

/-- Two returns that leave nothing behind, with an instruction that does nothing in between. -/
def Samples.cleanReturns : Program where
  locals := 1
  instrs :=
    [instr .push [1], instr .stLocal [0], instr .ldLocal [0], instr .ret, instr (.other "Nop"),
      instr .push [2], instr .push [3], instr (.binary .add), instr .ret]

theorem Program.import?_returns_iff_balanced_cleanReturns :
    Samples.cleanReturns.JumpFree ∧ Samples.cleanReturns.Balanced Opcode.endsStatement ∧
      ∃ m, Samples.cleanReturns.import? = .ok m ∧ m.KeepsTrees Samples.cleanReturns := by
  have hp : Samples.cleanReturns.JumpFree := by decide
  have hchecked : Samples.cleanReturns.Balanced Opcode.checksStack := by decide +kernel
  have hbalanced : Samples.cleanReturns.Balanced Opcode.endsStatement := by decide +kernel
  obtain ⟨hreturns, hkeeps⟩ := import?_returns_iff_balanced hp
  obtain ⟨m, hm⟩ := hreturns.mpr hchecked
  exact ⟨hp, hbalanced, m, hm, (hkeeps m hm).mpr hbalanced⟩

/-- The first return leaves two values behind.  The second one takes one of them, and the other
one is lost. -/
def Samples.leftBehind : Program where
  locals := 0
  instrs := [instr .push [1], instr .push [2], instr .push [3], instr .ret, instr .ret]

theorem Program.import?_leftBehind :
    Samples.leftBehind.JumpFree ∧ ¬ Samples.leftBehind.Balanced Opcode.endsStatement ∧
      ∃ m, Samples.leftBehind.import? = .ok m ∧ (m.ir.trees m.graph).length = 4 ∧
        ∃ b ∈ m.ir.blocks m.graph, ∃ t ∈ m.graph.treesOf b, t.block ≠ b := by
  decide +kernel

end LinearScan
