import Mathlib.Data.List.Induction
import LinearScan.Proofs.Fitting

/-!
# Expressions are computed in registers

Trees that are executed one after the other write the registers that are noted for them.  If no
tree takes the register of a value that is still to be taken, each tree finds the values of its
operands where they are expected.  For programs that compute with constants the allocation is of
this kind as soon as there are as many registers as there are trees on the stack while the program
is read, and one more if operands are not released before the result gets its register.
-/

namespace LinearScan

/-! ## Values of expressions -/

namespace Tree

variable {V : Type} {M : Meaning V} {locals : Locals V} {t u y : Tree} {d n : Nat}

theorem Needs.of_mem_postorder (h : u.Needs n) : ∀ y ∈ u.postorder, ∃ m, y.Needs m := by
  induction h with
  | const id operands block =>
      intro y hy
      rw [postorder_eq] at hy
      obtain rfl := List.mem_singleton.mp hy
      exact ⟨1, .const id operands block⟩
  | @binOp id op block a b m n ha hb iha ihb =>
      intro y hy
      rw [postorder_eq] at hy
      simp only [subtrees, List.flatMap_cons, List.flatMap_nil, List.append_nil, List.mem_append,
        List.mem_singleton] at hy
      rcases hy with (hy | hy) | rfl
      · exact iha y hy
      · exact ihb y hy
      · exact ⟨_, .binOp id op block ha hb⟩

theorem eval_binOp {id : TreeId} {op : Operator} {block : BlockId} {a b : Tree} {v w : V}
    (ha : eval M locals a = some v) (hb : eval M locals b = some w) :
    eval M locals (.node id .binOp [.operator op] block [a, b]) = some (M.apply op v w) := by
  rw [eval, evals_cons_eq_some.mpr ⟨v, [w], ha, evals_singleton hb, rfl⟩]
  rfl

theorem FitsStatement.of_mem_postorder (h : t.FitsStatement d) (hy : y ∈ t.postorder) :
    (∃ n, y.Needs n) ∨ y.kind = .discard ∨ y.kind = .ret := by
  obtain ⟨hkind, -, u, n, hsubtrees, hneeds, -⟩ := h
  rw [postorder_eq, hsubtrees, List.flatMap_singleton] at hy
  rcases List.mem_append.mp hy with hy | hy
  · exact Or.inl (hneeds.of_mem_postorder y hy)
  · rw [List.mem_singleton.mp hy]
    exact Or.inr hkind

end Tree

/-- A tree of statements that take expressions is an expression or one of the statements. -/
theorem Graph.Formed.needs_or_kind {g : Graph} {pending : List Tree} {d : Nat} {y : Tree}
    (hg : g.Formed pending) (hfits : ∀ t ∈ g.statementTrees, t.FitsStatement d)
    (hy : y ∈ g.treesFrom 0) : (∃ n, y.Needs n) ∨ y.kind = .discard ∨ y.kind = .ret := by
  obtain ⟨b, -, hyb⟩ := List.mem_flatMap.mp hy
  obtain ⟨r, hr, hyr⟩ := List.mem_flatMap.mp hyb
  exact (hfits _ (Graph.mem_statementTrees (hg.linked.lt_of_mem_stmtsOf hr))).of_mem_postorder hyr

/-! ## Execution -/

namespace RegisterMachine

variable {V : Type} {M : Meaning V} {n : Notes} {g : Graph} {pending before after : List Tree}
  {t u p y : Tree} {reuse : Bool} {locals : Locals V} {m : RegisterMachine V}

/-- Execute trees one after the other. -/
def execAll (M : Meaning V) (n : Notes) (ts : List Tree) (m : RegisterMachine V) :
    RegisterMachine V :=
  ts.foldl (fun m t => m.exec M n t) m

theorem execAll_concat (ts : List Tree) (t : Tree) (m : RegisterMachine V) :
    execAll M n (ts ++ [t]) m = (execAll M n ts m).exec M n t := by
  rw [execAll, List.foldl_concat, execAll]

/-- A tree writes no register but its own, and none if it has no value. -/
theorem registers_exec_of_ne {r : Int} (h : t.kind.isValue = true → r ≠ n.reg t) :
    (m.exec M n t).registers r = m.registers r := by
  rw [exec]
  split
  · next hkind =>
      rw [hkind] at h
      exact Function.update_of_ne (h rfl) _ _
  · next hkind _ _ =>
      rw [hkind] at h
      exact Function.update_of_ne (h rfl) _ _
  · rfl

/-- An expression whose operands are in their registers comes into its own. -/
theorem registers_exec_self {k : Nat} (hneeds : t.Needs k)
    (hoperands : ∀ u ∈ t.subtrees, Tree.eval M locals u = some (m.registers (n.reg u))) :
    Tree.eval M locals t = some ((m.exec M n t).registers (n.reg t)) := by
  cases hneeds with
  | const id operands block =>
      rw [exec]
      simp only [Tree.kind, Function.update_self]
      rfl
  | @binOp id op block a b _ _ _ _ =>
      rw [Tree.eval_binOp (hoperands a (by simp [Tree.subtrees]))
        (hoperands b (by simp [Tree.subtrees])), exec]
      simp only [Tree.kind, Tree.operands, Tree.subtrees, Function.update_self]

/-- If no tree takes the register of a value that is still to be taken, then each such value is in
its register. -/
theorem eval_eq_registers (hg : g.Formed pending) (hsorted : n.Sorted g)
    (hcases : ∀ y ∈ g.treesFrom 0, (∃ k, y.Needs k) ∨ y.kind = .discard ∨ y.kind = .ret)
    (hapart : n.Apart g reuse (g.treesFrom 0)) (htrees : g.treesFrom 0 = before ++ after)
    (hu : u ∈ before) (hparent : g.parent u = some p) (hp : p ∉ before) :
    Tree.eval M locals u = some ((execAll M n before m).registers (n.reg u)) := by
  -- Along the trees that have been executed; the invariant is the statement itself.
  induction before using List.reverseRecOn generalizing after u p with
  | nil => cases hu
  | append_singleton before y ih =>
      have hsplit : g.treesFrom 0 = before ++ y :: after := by
        rw [htrees, List.append_assoc, List.singleton_append]
      have hy : y ∈ g.treesFrom 0 := by simp [hsplit]
      rw [execAll_concat]
      by_cases huy : u = y
      · subst huy
        obtain ⟨b, -, hub⟩ := List.mem_flatMap.mp hy
        have hvalue := hg.isValue_of_parent hub hparent
        rcases hcases u hy with ⟨k, hneeds⟩ | hkind | hkind
        · refine registers_exec_self hneeds fun v hv => ?_
          obtain ⟨hpast, hvparent⟩ := Alloc.subtree_mem_past hg hsorted hsplit hv
          exact ih hsplit hpast hvparent fun hmem =>
            Nat.lt_irrefl _ (hsorted.lt_of_mem_past hsplit hmem)
        · rw [hkind] at hvalue
          cases hvalue
        · rw [hkind] at hvalue
          cases hvalue
      · have hpast : u ∈ before := by simpa [huy] using hu
        rw [List.mem_append, List.mem_singleton, not_or] at hp
        have hu' := Graph.mem_treesFrom_of_past hsplit hpast
        have hlater : n.index y < n.index p := by
          obtain ⟨hp', -, -⟩ := hsorted.parent_spec hg hu' hparent
          by_contra hle
          rcases Nat.lt_or_eq_of_le (Nat.le_of_not_lt hle) with hlt | heq
          · exact hp.1 (hsorted.mem_past_of_lt hsplit hp' hlt)
          · exact hp.2 (hsorted.eq_of_index_eq hsplit hp' heq)
        rw [registers_exec_of_ne, ← ih hsplit hpast hparent hp.1]
        intro hvalue
        exact (hapart u hu' y hy p hparent hvalue (hsorted.lt_of_mem_past hsplit hpast)
          (Or.inl hlater)).symm

end RegisterMachine

/-! ## Programs -/

theorem Graph.Formed.kind_ne_of_fits {g : Graph} {pending : List Tree} {d : Nat} {y : Tree}
    (hg : g.Formed pending) (hfits : ∀ t ∈ g.statementTrees, t.FitsStatement d)
    (hy : y ∈ g.treesFrom 0) : y.kind ≠ .ldLocal ∧ y.kind ≠ .stLocal := by
  rcases hg.needs_or_kind hfits hy with ⟨n, hneeds⟩ | hkind | hkind
  · cases hneeds <;> exact ⟨TreeKind.noConfusion, TreeKind.noConfusion⟩
  · rw [hkind]
    exact ⟨TreeKind.noConfusion, TreeKind.noConfusion⟩
  · rw [hkind]
    exact ⟨TreeKind.noConfusion, TreeKind.noConfusion⟩

/-- No block of a program that computes with constants leads to another one. -/
theorem Program.Arithmetic.exists_terminator {p : Program} (hp : p.Arithmetic) {m : Imported}
    (h : p.import? = .ok m) :
    ∀ b ∈ m.ir.blocks m.graph, ∃ t, m.graph.terminator b = .ok t ∧ t.operands = [] := by
  obtain ⟨⟨pending, hg⟩, -, hfirst⟩ := Program.import?_formed h
  obtain ⟨s, n, -, -, hgraph, hir, hpred, -⟩ := Program.import?_cases h
  intro b hb
  rw [Ir.blocks, hfirst, hgraph] at hb
  have hlast := last_ne_none_of_notePredecessors hpred b hb
  rw [← hgraph] at hlast
  obtain ⟨r, hr⟩ := Option.ne_none_iff_exists'.mp hlast
  refine ⟨(m.graph.stmt r).tree, by rw [Graph.terminator, hr], ?_⟩
  exact (hp.import?_fitted h _ (Graph.mem_statementTrees (hg.linked.last_lt hr))).2.1

/-- Before the first block is scanned nothing has been computed. -/
theorem Alloc.survey_computed {g : Graph} {ir : Ir} {n : Notes} {size : Int} {reuse : Bool}
    {s : Allocator} (hn : n.Fresh) (hsorted : n.Sorted g)
    (h : survey g ir (Allocator.create n size reuse) = .ok () s) :
    Computed g size.toNat reuse [] s := by
  obtain ⟨-, hlisted⟩ := survey_hasScanned hn h
  have htree : ∀ t, s.notes.tree t = n.tree t := hlisted.tree_eq
  exact
    { rested := survey_rested hn hsorted h
      size_eq := by
        rw [hlisted.registers_eq]
        exact List.length_replicate
      reuse_eq := hlisted.reuse_eq
      unspilled := fun t => by
        rw [htree]
        exact ⟨hn.spills_eq t, hn.restores_eq t⟩
      apart := fun u hu => by cases hu
      assigned := fun u hu => by cases hu
      reg_eq := fun u _ _ => by
        rw [Notes.reg, htree]
        exact hn.reg_eq u }

open Alloc in
/-- A program that computes with constants names no variable, so that the survey returns. -/
theorem Program.Arithmetic.exists_survey {p : Program} (hp : p.Arithmetic) {m : Imported}
    (h : p.import? = .ok m) (settings : Settings) :
    ∃ s₀, survey m.graph m.ir
      (Allocator.create m.notes settings.registers settings.reuse) = .ok () s₀ := by
  obtain ⟨⟨pending, hg⟩, hfresh, hfirst⟩ := Program.import?_formed h
  have hnamed : m.graph.NamesVariables m.ir.locals.toNat := fun t ht hkind =>
    absurd hkind (not_or.mpr (hg.kind_ne_of_fits (hp.import?_fitted h) ht))
  obtain ⟨⟨⟩, s₀, hsurvey⟩ : Returns (survey m.graph m.ir)
      (Allocator.create m.notes settings.registers settings.reuse) :=
    returns_survey hg hfirst hnamed hfresh.liveIn_eq hfresh.intervalCount_eq
  exact ⟨s₀, hsurvey⟩

open Alloc in
/-- A program that computes with constants is scanned without a spill if there are registers for
all that is on the stack while it is read. -/
theorem Program.Arithmetic.exists_compiled {p : Program} (hp : p.Arithmetic) {m : Imported}
    (h : p.import? = .ok m) {settings : Settings}
    (hsize : (p.peak : Int) + (if settings.reuse then 0 else 1) ≤ settings.registers) :
    ∃ c pending, p.compile settings = .ok c ∧ c.fault = none ∧ c.graph.Formed pending ∧
      c.ir.trees c.graph = c.graph.treesFrom 0 ∧
      (∀ t ∈ c.graph.statementTrees, t.FitsStatement p.peak) ∧
      c.alloc.notes.Sorted c.graph ∧ c.alloc.notes.Unspilled ∧
      c.alloc.notes.Apart c.graph settings.reuse (c.graph.treesFrom 0) := by
  obtain ⟨⟨pending, hg⟩, hfresh, hfirst⟩ := Program.import?_formed h
  have hfits := hp.import?_fitted h
  have hexits := hp.exists_terminator h
  obtain ⟨s₀, hsurvey⟩ := hp.exists_survey h settings
  obtain ⟨hhas, hlisted⟩ := survey_hasScanned hfresh hsurvey
  have hstart := survey_computed hfresh (Program.import?_sorted h (hp.jumpFree.ids_nodup h)) hsurvey
  have hblocks : m.graph.blocksFrom 0 = [] ++ m.ir.blocks m.graph := by
    rw [Ir.blocks, hfirst, List.nil_append]
  have hroom : p.peak + (if settings.reuse then 0 else 1) ≤ settings.registers.toNat := by
    split at hsize <;> simp only [*, if_true, if_false, Bool.false_eq_true] <;> omega
  have hpredecessors : ∀ b, (s₀.notes.block b).predecessors = [] := by
    intro b
    rw [Notes.block, hlisted.blocks_eq]
    exact Program.import?_predecessors_eq_nil h hexits b
  obtain ⟨s₁, hscan, hend⟩ := hstart.blocks hg (fun t ht => (hg.kind_ne_of_fits hfits ht).1) hfits
    hroom hpredecessors hblocks hhas
  have hcompile := Program.compile_of_scanBlocks h hexits hsurvey hscan
  refine ⟨_, pending, hcompile, rfl, hg, ?_, hfits, hend.rested.sorted, hend.unspilled, hend.apart⟩
  rw [Ir.trees, hfirst]

/-- Expressions that fit into the registers are computed there: the program compiles, nothing is
spilled or restored, and when a tree is executed each of its operands has its value in its
register.  If operands are not released before the result gets its register, the result of an
operation is in another register than its operands. -/
theorem Program.Arithmetic.compile_computes {p : Program} (hp : p.Arithmetic) {m : Imported}
    (h : p.import? = .ok m) (settings : Settings)
    (hsize : (p.peak : Int) + (if settings.reuse then 0 else 1) ≤ settings.registers) :
    ∃ c, p.compile settings = .ok c ∧ c.fault = none ∧
      (∀ t, (c.alloc.notes.tree t).spills = [] ∧ (c.alloc.notes.tree t).restores = []) ∧
      (∀ (V : Type) (M : Meaning V) (locals : Locals V) (machine : RegisterMachine V)
          before t after,
        c.ir.trees c.graph = before ++ t :: after → ∀ u ∈ t.subtrees,
          Tree.eval M locals u =
            some ((RegisterMachine.execAll M c.alloc.notes before machine).registers
              (c.alloc.notes.reg u))) ∧
      (settings.reuse = false → ∀ t ∈ c.ir.trees c.graph, t.kind = .binOp → ∀ u ∈ t.subtrees,
        c.alloc.notes.reg t ≠ c.alloc.notes.reg u) := by
  obtain ⟨c, pending, hcompile, hfault, hg, htrees, hfits, hsorted, hunspilled, hapart⟩ :=
    hp.exists_compiled h hsize
  refine ⟨c, hcompile, hfault, hunspilled, ?_, ?_⟩
  · intro V M locals machine before t after hsplit u hu
    rw [htrees] at hsplit
    obtain ⟨hpast, hparent⟩ := Alloc.subtree_mem_past hg hsorted hsplit hu
    exact RegisterMachine.eval_eq_registers hg hsorted (fun y hy => hg.needs_or_kind hfits hy)
      hapart hsplit hpast hparent
      fun hmem => Nat.lt_irrefl _ (hsorted.lt_of_mem_past hsplit hmem)
  · intro hreuse t ht hkind u hu
    rw [htrees] at ht
    obtain ⟨before, after, hsplit⟩ := List.append_of_mem ht
    obtain ⟨hpast, hparent⟩ := Alloc.subtree_mem_past hg hsorted hsplit hu
    have hu' := Graph.mem_treesFrom_of_past hsplit hpast
    exact hapart u hu' t ht t hparent (by rw [hkind]; rfl)
      (hsorted.lt_of_mem_past hsplit hpast) (Or.inr ⟨hreuse, rfl⟩)

/-- Two returns, and an operation as the right operand of another one. -/
def Samples.twoReturns : Program where
  locals := 0
  instrs :=
    [instr .push [1], instr .push [2], instr .push [3], instr (.binary .add), instr (.binary .mul),
      instr .pop, instr .push [4], instr .push [5], instr (.binary .sub), instr .ret,
      instr .push [6], instr .ret]

theorem Program.Arithmetic.compile_computes_twoReturns :
    Samples.twoReturns.Arithmetic ∧ Samples.twoReturns.peak = 3 ∧
      ∃ c, Samples.twoReturns.compile { registers := 4, reuse := false } = .ok c ∧
        c.fault = none ∧
        (∀ t, (c.alloc.notes.tree t).spills = [] ∧ (c.alloc.notes.tree t).restores = []) ∧
        (∀ (locals : Locals Int) (machine : RegisterMachine Int) before t after,
          c.ir.trees c.graph = before ++ t :: after → ∀ u ∈ t.subtrees,
            Tree.eval .integers locals u =
              some ((RegisterMachine.execAll .integers c.alloc.notes before machine).registers
                (c.alloc.notes.reg u))) ∧
        ∀ t ∈ c.ir.trees c.graph, t.kind = .binOp → ∀ u ∈ t.subtrees,
          c.alloc.notes.reg t ≠ c.alloc.notes.reg u := by
  have harith : Samples.twoReturns.Arithmetic := by decide
  have hpeak : Samples.twoReturns.peak = 3 := by decide +kernel
  obtain ⟨m, himport, -⟩ : ∃ m, Samples.twoReturns.import? = .ok m ∧ True := by decide +kernel
  obtain ⟨c, hcompile, hfault, hunspilled, hvalues, hregs⟩ :=
    harith.compile_computes himport { registers := 4, reuse := false } (by rw [hpeak]; decide)
  exact ⟨harith, hpeak, c, hcompile, hfault, hunspilled, hvalues Int .integers, hregs rfl⟩

end LinearScan
