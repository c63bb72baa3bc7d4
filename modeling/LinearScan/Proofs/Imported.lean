import LinearScan.Import
import LinearScan.Proofs.Forest
import LinearScan.Proofs.Steps

/-!
# What reading a program builds

Whatever program is read, and however far, the graph under construction is linked,
chained and planted, and the trees on the stack produce values.  Each instruction
keeps this, and so does the whole run.
-/

namespace LinearScan

/-- The first of the instructions that are left from `i` on. -/
theorem drop_cases {code rest : List Instr} {instr : Instr} {i : Nat}
    (h : code.drop i = instr :: rest) :
    code[i]? = some instr ∧ code.drop (i + 1) = rest := by
  constructor
  · rw [← List.head?_drop, h, List.head?_cons]
  · rw [← List.tail_drop, h, List.tail_cons]

theorem getLast?_of_drop {code : List Instr} {instr : Instr} {i : Nat}
    (h : code.drop i = [instr]) : code.getLast? = some instr := by
  rw [← List.take_append_drop i code, h, List.getLast?_concat]

/-- The offsets of the stores among instructions, the first of which has offset `i`. -/
def storeOffsets (i : Nat) (code : List Instr) : List Nat :=
  ((code.zipIdx i).filter fun x => x.1.opcode = .stLocal).map Prod.snd

theorem nodup_storeOffsets (i : Nat) (code : List Instr) : (storeOffsets i code).Nodup := by
  have hoffsets : ((code.zipIdx i).map Prod.snd).Nodup := by
    rw [List.zipIdx_map_snd]
    exact List.nodup_range'
  exact (List.filter_sublist.map _).nodup hoffsets

/-- Stores that have their operands for themselves share nothing. -/
theorem shareStores_eq_self {lists : Nat → Nat} {earlier stores : List (Nat × Tree)}
    (h : ((earlier ++ stores).map fun store => lists store.1).Nodup) (g : Graph) :
    g.shareStores lists earlier stores = g := by
  induction stores generalizing earlier with
  | nil => rfl
  | cons store stores ih =>
      have hnone : (earlier.filter fun old => lists old.1 == lists store.1) = [] := by
        refine List.filter_eq_nil_iff.mpr fun old hold heq => ?_
        rw [List.map_append, List.map_cons, List.nodup_append] at h
        exact h.2.2 _ (List.mem_map_of_mem hold) _ List.mem_cons_self (beq_iff_eq.mp heq)
      rw [Graph.shareStores, hnone]
      exact ih (by rwa [List.append_assoc, List.singleton_append])

namespace Graph

theorem block_newChain (b : BlockId) : (({} : Graph).newChain).block b = {} := by
  rw [newChain, block_addBlock]
  split
  · rfl
  · exact Table.get_empty b

theorem follows_newChain :
    Follows (fun b => ((({} : Graph).newChain).block b).next) (some 0) [0] :=
  ⟨rfl, congrArg Block.next (block_newChain 0)⟩

/-! ## Looking up a block -/

variable {g g' : Graph} {first b : BlockId} {offset : Int}

/-- What a look-up that returned has done. -/
theorem blockAt_cases (h : blockAt first offset g = .ok b g') :
    (g.locate first offset = .ok (.existing b) ∧ g' = g) ∨
      (∃ c, g.locate first offset = .ok (.behind c) ∧
        b = g.blockCount ∧ g' = g.insertBehind c offset) ∨
      ∃ c s, g.locate first offset = .ok (.within c s) ∧
        b = g.blockCount ∧ g' = g.split c s offset := by
  rw [blockAt_apply] at h
  cases hplace : g.locate first offset with
  | error fault =>
      rw [hplace] at h
      cases h
  | ok place =>
      rw [hplace] at h
      cases place with
      | existing c =>
          injection h with hb hg
          exact Or.inl ⟨by rw [hb], hg.symm⟩
      | behind c =>
          injection h with hb hg
          exact Or.inr (Or.inl ⟨c, rfl, hb.symm, hg.symm⟩)
      | within c s =>
          injection h with hb hg
          exact Or.inr (Or.inr ⟨c, s, rfl, hb.symm, hg.symm⟩)

theorem landing_mem (g : Graph) (offset : Int) (b : BlockId) (rest : List BlockId) :
    g.landing offset b rest ∈ b :: rest := by
  induction rest generalizing b with
  | nil => simp [landing]
  | cons c rest ih =>
      rw [landing]
      split
      · exact List.mem_cons_of_mem _ (ih c)
      · simp

/-- The block in whose range an offset lies belongs to the chain. -/
theorem landing_lt (hg : g.Chained first) :
    g.landing offset first (g.blocksFrom first).tail < g.blockCount := by
  have hmem := g.landing_mem offset first (g.blocksFrom first).tail
  have hchain : first :: (g.blocksFrom first).tail = g.blocksFrom first := by
    have hfollows := hg.follows
    cases hbs : g.blocksFrom first with
    | nil =>
        rw [hbs] at hfollows
        cases hfollows
    | cons c rest =>
        rw [hbs] at hfollows
        have hc : first = c := Option.some.inj hfollows.1
        rw [hc, List.tail_cons]
  rw [hchain] at hmem
  exact (hg.mem_iff _).mp hmem

/-- The places that a search finds are there. -/
theorem locate_spec (hg : g.Chained first) {place : Landing}
    (h : g.locate first offset = .ok place) :
    match place with
    | .existing b => b < g.blockCount ∧ (g.block b).offset = offset
    | .behind b => b < g.blockCount
    | .within b s => b < g.blockCount ∧ s ∈ g.stmtsOf b := by
  have hlt : g.landing offset first (g.blocksFrom first).tail < g.blockCount := landing_lt hg
  simp only [locate] at h
  split at h
  · next hoffset =>
      injection h with h
      subst h
      exact ⟨hlt, hoffset⟩
  · split at h
    · cases h
    · split at h
      · injection h with h
        subst h
        exact hlt
      · next s rest hrest =>
          split at h
          · cases h
          · injection h with h
            subst h
            refine ⟨hlt, ?_⟩
            exact (List.dropWhile_sublist _).subset (hrest ▸ List.mem_cons_self)

end Graph

namespace Importer

/-- A reader that has read nothing. -/
def fresh : Importer := { graph := ({} : Graph).newChain, first := 0, block := 0 }

/-- The graph that is under construction is sound, and so is the stack. -/
structure WellFormed (s : Importer) : Prop where
  linked : s.graph.Linked
  chained : s.graph.Chained s.first
  planted : s.graph.Planted s.stack
  stack_isValue : ∀ t ∈ s.stack, t.kind.isValue = true
  block_lt : s.block < s.graph.blockCount
  twins_eq : s.graph.twins = {}
  first_eq : s.first = 0

variable {s s' : Importer} {instr : Instr}

/-! ## Inversion of the parts of a step -/

theorem fold_cases
    {n : Nat} {kind : TreeKind} {operands : List Operand}
    (h : s.fold n kind operands = .ok s') :
    n ≤ s.stack.length ∧
      s' = { s with
        graph := (s.graph.newTree kind operands s.block (s.stack.take n).reverse).2
        stack := (s.graph.newTree kind operands s.block (s.stack.take n).reverse).1 ::
          s.stack.drop n } := by
  simp only [fold] at h
  split at h
  · cases h
  · next hn =>
      injection h with h
      exact ⟨Nat.not_lt.mp hn, h.symm⟩

theorem requireEmpty_cases (h : s.requireEmpty = .ok s') : s.stack = [] ∧ s' = s := by
  simp only [requireEmpty] at h
  split at h
  · next hempty =>
      injection h with h
      exact ⟨List.isEmpty_iff.mp hempty, h.symm⟩
  · cases h

theorem proceed_cases {isLast : Bool} (h : s.proceed isLast = .ok s') :
    isLast = false ∧ s' = s := by
  simp only [proceed] at h
  split at h
  · cases h
  · next hlast =>
      injection h with h
      exact ⟨by simpa using hlast, h.symm⟩

theorem target_cases {offset : Int} {b : BlockId} (h : s.target offset = .ok (b, s')) :
    ∃ g, Graph.blockAt s.first offset s.graph = .ok b g ∧ s' = { s with graph := g } := by
  simp only [target] at h
  split at h
  · next c g hblock =>
      injection h with h
      injection h with hb hs
      exact ⟨g, by rw [hblock, hb], hs.symm⟩
  · cases h

theorem edgeTo_cases
    {operands : List Literal} {k : Nat} {b : BlockId}
    (h : s.edgeTo operands k = .ok (b, s')) :
    ∃ offset, operands[k]? = some (.num offset) ∧ s.target offset = .ok (b, s') := by
  simp only [edgeTo] at h
  split at h
  · cases h
  · cases h
  · next offset hoperand => exact ⟨offset, hoperand, h⟩

theorem leave_cases {i : Nat} {isLast : Bool} (h : s.leave i isLast = .ok s') :
    (isLast = true ∧ s' = s) ∨
      isLast = false ∧
        ∃ b s₁, s.target (i + 1 : Nat) = .ok (b, s₁) ∧ s' = { s₁ with block := b } := by
  simp only [leave] at h
  split at h
  · next hlast =>
      injection h with h
      exact Or.inl ⟨hlast, h.symm⟩
  · next hlast =>
      obtain ⟨⟨b, s₁⟩, htarget, h⟩ := exists_of_bind_eq_ok h
      injection h with h
      exact Or.inr ⟨by simpa using hlast, b, s₁, htarget, h.symm⟩

/-- The instruction folds `n` trees into a value of the kind, with the operands. -/
inductive Computes (instr : Instr) : Nat → TreeKind → List Operand → Prop
  | ldLocal (hop : instr.opcode = .ldLocal) :
      Computes instr 0 .ldLocal (instr.operands.map .literal)
  | push (hop : instr.opcode = .push) : Computes instr 0 .const (instr.operands.map .literal)
  | binary {op : Operator} (hop : instr.opcode = .binary op) :
      Computes instr 2 .binOp [.operator op]

/-- Reading the instruction at `i` leads from `s` to the last state. -/
inductive Stepped (s : Importer) (i : Nat) (instr : Instr) : Bool → Importer → Prop
  | value {n : Nat} {kind : TreeKind} {operands : List Operand} {s' : Importer}
      (hmade : Computes instr n kind operands) (hfold : s.fold n kind operands = .ok s') :
      Stepped s i instr false s'
  | stLocal {s₁ : Importer} (hop : instr.opcode = .stLocal)
      (hfold : s.fold 1 .stLocal (instr.operands.map .literal) = .ok s₁)
      (hempty : ((s₁.noteStore i).finish i).stack = []) :
      Stepped s i instr false ((s₁.noteStore i).finish i)
  | pop {s₁ : Importer} (hop : instr.opcode = .pop) (hfold : s.fold 1 .discard [] = .ok s₁)
      (hempty : (s₁.finish i).stack = []) : Stepped s i instr false (s₁.finish i)
  | jmp {b : BlockId} {s₁ s₂ s' : Importer} {isLast : Bool} (hop : instr.opcode = .jmp)
      (hedge : s.edgeTo instr.operands 0 = .ok (b, s₁))
      (hfold : (s₁.newEdge b).2.fold 0 .jmp [(s₁.newEdge b).1] = .ok s₂)
      (hempty : (s₂.finish i).stack = []) (hleave : (s₂.finish i).leave i isLast = .ok s') :
      Stepped s i instr isLast s'
  | branch {yes no : BlockId} {s₁ s₂ s₃ s' : Importer} {isLast : Bool}
      (hop : instr.opcode = .branch) (hyes : s.edgeTo instr.operands 0 = .ok (yes, s₁))
      (hno : s₁.edgeTo instr.operands 1 = .ok (no, s₂))
      (hfold : ((s₂.newEdge yes).2.newEdge no).2.fold 1 .branch
        [(s₂.newEdge yes).1, ((s₂.newEdge yes).2.newEdge no).1] = .ok s₃)
      (hempty : (s₃.finish i).stack = []) (hleave : (s₃.finish i).leave i isLast = .ok s') :
      Stepped s i instr isLast s'
  | ret {s₁ s' : Importer} {isLast : Bool} (hop : instr.opcode = .ret)
      (hfold : s.fold 1 .ret [] = .ok s₁) (hleave : (s₁.finish i).leave i isLast = .ok s') :
      Stepped s i instr isLast s'
  | other {name : String} (hop : instr.opcode = .other name) : Stepped s i instr false s

theorem Computes.spec {n : Nat} {kind : TreeKind} {operands : List Operand}
    (h : Computes instr n kind operands) :
    n = kind.arity ∧ kind.isValue = true ∧ operands.filterMap Operand.edge? = [] := by
  cases h <;> simp [TreeKind.arity, TreeKind.isValue, List.filterMap_map, Operand.edge?]

/-- What reading an instruction does. -/
theorem step_cases {i : Nat} {isLast : Bool} (h : s.step i isLast instr = .ok s') :
    Stepped s i instr isLast s' := by
  rw [step] at h
  cases hop : instr.opcode with
  | ldLocal | push | binary op =>
      rw [hop] at h
      obtain ⟨s₁, hfold, h⟩ := exists_of_bind_eq_ok h
      obtain ⟨rfl, rfl⟩ := proceed_cases h
      exact .value (by constructor; exact hop) hfold
  | stLocal | pop =>
      rw [hop] at h
      obtain ⟨s₁, hfold, h⟩ := exists_of_bind_eq_ok h
      obtain ⟨s₂, hempty, h⟩ := exists_of_bind_eq_ok h
      obtain ⟨hstack, rfl⟩ := requireEmpty_cases hempty
      obtain ⟨rfl, rfl⟩ := proceed_cases h
      first | exact .stLocal hop hfold hstack | exact .pop hop hfold hstack
  | jmp =>
      rw [hop] at h
      obtain ⟨⟨b, s₁⟩, hedge, h⟩ := exists_of_bind_eq_ok h
      obtain ⟨s₂, hfold, h⟩ := exists_of_bind_eq_ok h
      obtain ⟨s₃, hempty, h⟩ := exists_of_bind_eq_ok h
      obtain ⟨hstack, rfl⟩ := requireEmpty_cases hempty
      exact .jmp hop hedge hfold hstack h
  | branch =>
      rw [hop] at h
      obtain ⟨⟨yes, s₁⟩, hyes, h⟩ := exists_of_bind_eq_ok h
      obtain ⟨⟨no, s₂⟩, hno, h⟩ := exists_of_bind_eq_ok h
      obtain ⟨s₃, hfold, h⟩ := exists_of_bind_eq_ok h
      obtain ⟨s₄, hempty, h⟩ := exists_of_bind_eq_ok h
      obtain ⟨hstack, rfl⟩ := requireEmpty_cases hempty
      exact .branch hop hyes hno hfold hstack h
  | ret =>
      rw [hop] at h
      obtain ⟨s₁, hfold, h⟩ := exists_of_bind_eq_ok h
      exact .ret hop hfold h
  | other name =>
      rw [hop] at h
      obtain ⟨rfl, rfl⟩ := proceed_cases h
      exact .other hop

theorem requireEmpty_eq_ok (h : s.stack = []) : s.requireEmpty = .ok s := by
  rw [requireEmpty, h]
  rfl

theorem Stepped.step_eq {i : Nat} {isLast : Bool} (h : Stepped s i instr isLast s') :
    s.step i isLast instr = .ok s' := by
  have hbind : ∀ {α β : Type} (a : α) (f : α → Except Fault β), (Except.ok a >>= f) = f a :=
    fun _ _ => rfl
  cases h with
  | value hmade hfold =>
      cases hmade with
      | ldLocal hop | push hop | binary hop =>
          simp only [step, hop, hfold]
          rfl
  | stLocal hop hfold hempty | pop hop hfold hempty =>
      simp only [step, hop, hfold, hbind, requireEmpty_eq_ok hempty]
      rfl
  | jmp hop hedge hfold hempty hleave =>
      simp only [step, hop, hedge, hbind, hfold, requireEmpty_eq_ok hempty]
      exact hleave
  | branch hop hyes hno hfold hempty hleave =>
      simp only [step, hop, hyes, hno, hbind, hfold, requireEmpty_eq_ok hempty]
      exact hleave
  | ret hop hfold hleave =>
      simp only [step, hop, hfold]
      exact hleave
  | other hop =>
      simp only [step, hop]
      rfl

/-! ## The stores that are noted -/

theorem finish_stores (i : Nat) (s : Importer) : (s.finish i).stores = s.stores := by
  rw [finish]
  cases s.stack <;> rfl

theorem edgeTo_eq {operands : List Literal} {k : Nat} {b : BlockId}
    (h : s.edgeTo operands k = .ok (b, s')) : ∃ g, s' = { s with graph := g } := by
  obtain ⟨offset, -, htarget⟩ := edgeTo_cases h
  obtain ⟨g, -, rfl⟩ := target_cases htarget
  exact ⟨g, rfl⟩

theorem leave_eq {i : Nat} {isLast : Bool} (h : s.leave i isLast = .ok s') :
    ∃ g b, s' = { s with graph := g, block := b } := by
  rcases leave_cases h with ⟨-, rfl⟩ | ⟨-, b, s₁, htarget, rfl⟩
  · exact ⟨s'.graph, s'.block, rfl⟩
  · obtain ⟨g, -, rfl⟩ := target_cases htarget
    exact ⟨g, b, rfl⟩

theorem step_stores {i : Nat} {isLast : Bool} (h : s.step i isLast instr = .ok s') :
    s'.stores.map Prod.fst =
      s.stores.map Prod.fst ++ if instr.opcode = .stLocal then [i] else [] := by
  have hfinish : ∀ {s₀ s₁ s₂ : Importer} {n : Nat} {kind : TreeKind} {operands : List Operand},
      s₀.fold n kind operands = .ok s₁ → (s₁.finish i).leave i isLast = .ok s₂ →
      s₂.stores = s₀.stores := by
    intro s₀ s₁ s₂ n kind operands hfold hleave
    obtain ⟨g, b, rfl⟩ := leave_eq hleave
    obtain ⟨-, rfl⟩ := fold_cases hfold
    exact finish_stores i _
  cases step_cases h with
  | value hmade hfold =>
      obtain ⟨-, rfl⟩ := fold_cases hfold
      cases hmade with
      | ldLocal hop | push hop | binary hop => simp [hop]
  | stLocal hop hfold =>
      obtain ⟨-, rfl⟩ := fold_cases hfold
      simp [hop, finish_stores, noteStore]
  | pop hop hfold =>
      obtain ⟨-, rfl⟩ := fold_cases hfold
      simp [hop, finish_stores]
  | jmp hop hedge hfold hempty hleave =>
      obtain ⟨g, rfl⟩ := edgeTo_eq hedge
      simp [hop, hfinish hfold hleave, newEdge]
  | branch hop hyes hno hfold hempty hleave =>
      obtain ⟨g, rfl⟩ := edgeTo_eq hyes
      obtain ⟨g, rfl⟩ := edgeTo_eq hno
      simp [hop, hfinish hfold hleave, newEdge]
  | ret hop hfold hleave => simp [hop, hfinish hfold hleave]
  | other hop => simp [hop]

/-- Every store is noted once, in the order of the program. -/
theorem run_stores {code : List Instr} {i : Nat} (h : s.run i code = .ok s') :
    s'.stores.map Prod.fst = s.stores.map Prod.fst ++ storeOffsets i code := by
  induction code generalizing i s with
  | nil =>
      obtain rfl : s = s' := Except.ok.inj h
      simp [storeOffsets]
  | cons instr code ih =>
      obtain ⟨s₁, hstep, hrun⟩ := exists_of_bind_eq_ok h
      rw [ih hrun, step_stores hstep, storeOffsets, storeOffsets, List.zipIdx_cons,
        List.filter_cons, List.append_assoc]
      by_cases hop : instr.opcode = .stLocal <;> simp [hop]

/-! ## Soundness is kept -/

namespace WellFormed

section

variable (hs : s.WellFormed)
include hs

section

variable {n : Nat} {kind : TreeKind} {operands : List Operand} (h : s.fold n kind operands = .ok s')
include h

theorem fold_value (harity : n = kind.arity) (hkind : kind.isValue = true)
    (hoperands : operands.filterMap Operand.edge? = []) : s'.WellFormed := by
  subst harity
  obtain ⟨hlength, rfl⟩ := fold_cases h
  refine {
    linked := hs.linked.newTree kind operands s.block _
    chained := hs.chained.newTree kind operands s.block _
    planted := ?_
    stack_isValue := ?_
    block_lt := ?_
    twins_eq := hs.twins_eq
    first_eq := hs.first_eq }
  · exact hs.planted.newTree kind operands s.block hlength
      (fun u hu => hs.stack_isValue u (List.mem_of_mem_take hu)) (by simp [hoperands])
      (by simp [hoperands])
  · intro t ht
    rcases List.mem_cons.mp ht with rfl | ht
    · exact hkind
    · exact hs.stack_isValue t (List.mem_of_mem_drop ht)
  · simpa using hs.block_lt

/-- A statement: the topmost trees are put under a new one, which leaves the
stack. -/
theorem fold_finish (i : Nat) (harity : n = kind.arity) (hkind : kind.isValue = false)
    (hnodup : ((operands.filterMap Operand.edge?).map Prod.fst).Nodup)
    (hfresh : ∀ e ∈ operands.filterMap Operand.edge?, e.1 ∉ s.graph.edgeIds s.stack ∧
      e.1 < s.graph.edgeCount ∧ e.2 < s.graph.blockCount) : (s'.finish i).WellFormed := by
  subst harity
  obtain ⟨hlength, rfl⟩ := fold_cases h
  have hplanted := hs.planted.newTree kind operands s.block hlength
    (fun u hu => hs.stack_isValue u (List.mem_of_mem_take hu)) hnodup hfresh
  refine {
    linked := (hs.linked.newTree kind operands s.block _).append _ _ _
    chained := (hs.chained.newTree kind operands s.block _).append _ _ _
    planted := hplanted.append _ _ hkind
    stack_isValue := fun t ht => hs.stack_isValue t (List.mem_of_mem_drop ht)
    block_lt := ?_
    twins_eq := ?_
    first_eq := hs.first_eq }
  · simpa [finish] using hs.block_lt
  · simpa [finish] using hs.twins_eq

end

/-- Looking up a block keeps what was built so far, and finds a block. -/
theorem target {offset : Int} {b : BlockId} (h : s.target offset = .ok (b, s')) :
    s'.WellFormed ∧ b < s'.graph.blockCount ∧ s.graph.blockCount ≤ s'.graph.blockCount ∧
      s'.stack = s.stack := by
  obtain ⟨g, hblock, rfl⟩ := target_cases h
  rcases Graph.blockAt_cases hblock with ⟨hplace, rfl⟩ | ⟨c, hplace, rfl, rfl⟩ |
      ⟨c, r, hplace, rfl, rfl⟩
  · have hspec := Graph.locate_spec hs.chained hplace
    exact ⟨hs, hspec.1, Nat.le_refl _, rfl⟩
  · have hc : c < s.graph.blockCount := Graph.locate_spec hs.chained hplace
    refine ⟨⟨hs.linked.insertBehind c offset, hs.chained.insertBehind hc offset,
      hs.planted.insertBehind c offset, hs.stack_isValue, ?_, ?_, hs.first_eq⟩, ?_, ?_, rfl⟩
    · simpa using Nat.lt_succ_of_lt hs.block_lt
    · simpa using hs.twins_eq
    · simp
    · simp
  · obtain ⟨hc, hr⟩ := Graph.locate_spec hs.chained hplace
    refine ⟨⟨hs.linked.split offset hc (hs.linked.lt_of_mem_stmtsOf hr),
      hs.chained.split hc r offset, hs.planted.split c r offset, hs.stack_isValue, ?_, ?_,
      hs.first_eq⟩, ?_, ?_, rfl⟩
    · simpa using Nat.lt_succ_of_lt hs.block_lt
    · simpa using hs.twins_eq
    · simp
    · simp

theorem leave {i : Nat} {isLast : Bool} (h : s.leave i isLast = .ok s') : s'.WellFormed := by
  rcases leave_cases h with ⟨-, rfl⟩ | ⟨-, b, s₁, htarget, rfl⟩
  · exact hs
  · obtain ⟨hs₁, hb, -, -⟩ := hs.target htarget
    exact ⟨hs₁.linked, hs₁.chained, hs₁.planted, hs₁.stack_isValue, hb, hs₁.twins_eq,
      hs₁.first_eq⟩

theorem newEdge (b : BlockId) : (s.newEdge b).2.WellFormed where
  linked := hs.linked.newEdge b
  chained := hs.chained.newEdge b
  planted := hs.planted.newEdge b
  stack_isValue := hs.stack_isValue
  block_lt := hs.block_lt
  twins_eq := hs.twins_eq
  first_eq := hs.first_eq

/-- Reading an instruction keeps what was built so far sound. -/
theorem step {i : Nat} {isLast : Bool} (h : s.step i isLast instr = .ok s') : s'.WellFormed := by
  have hliterals := Operand.edges_literals instr.operands
  cases step_cases h with
  | value hmade hfold =>
      obtain ⟨harity, hvalue, hedges⟩ := hmade.spec
      exact hs.fold_value hfold harity hvalue hedges
  | stLocal hop hfold _ =>
      have hfinish := hs.fold_finish hfold i rfl rfl (by simp [hliterals]) (by simp [hliterals])
      obtain ⟨-, rfl⟩ := fold_cases hfold
      exact ⟨hfinish.linked, hfinish.chained, hfinish.planted, hfinish.stack_isValue,
        hfinish.block_lt, hfinish.twins_eq, hfinish.first_eq⟩
  | pop hop hfold _ => exact hs.fold_finish hfold i rfl rfl (by simp) (by simp)
  | @jmp b s₁ s₂ _ _ hop hedge hfold _ hleave =>
      obtain ⟨offset, -, htarget⟩ := edgeTo_cases hedge
      obtain ⟨hs₁, hb, -, -⟩ := hs.target htarget
      refine ((hs₁.newEdge b).fold_finish hfold i rfl rfl ?_ ?_).leave hleave
      · simp [Importer.newEdge, Graph.newEdge, Operand.edge?]
      · intro e he
        obtain rfl : e = (s₁.graph.edgeCount, b) := by
          simpa [Importer.newEdge, Graph.newEdge, Operand.edge?] using he
        exact ⟨hs₁.planted.edgeCount_not_mem (Nat.le_refl _), Nat.lt_succ_self _, hb⟩
  | @branch yes no s₁ s₂ s₃ _ _ hop hyes hno hfold _ hleave =>
      obtain ⟨yesOffset, -, hyesTarget⟩ := edgeTo_cases hyes
      obtain ⟨noOffset, -, hnoTarget⟩ := edgeTo_cases hno
      obtain ⟨hs₁, hyesLt, -, -⟩ := hs.target hyesTarget
      obtain ⟨hs₂, hnoLt, hmono, -⟩ := hs₁.target hnoTarget
      refine (((hs₂.newEdge yes).newEdge no).fold_finish hfold i rfl rfl ?_ ?_).leave hleave
      · simp [Importer.newEdge, Graph.newEdge, Operand.edge?]
      · intro e he
        have he' : e = (s₂.graph.edgeCount, yes) ∨ e = (s₂.graph.edgeCount + 1, no) := by
          simpa [Importer.newEdge, Graph.newEdge, Operand.edge?] using he
        rcases he' with rfl | rfl
        · exact ⟨hs₂.planted.edgeCount_not_mem (Nat.le_refl _),
            Nat.lt_succ_of_lt (Nat.lt_succ_self _), Nat.lt_of_lt_of_le hyesLt hmono⟩
        · exact ⟨hs₂.planted.edgeCount_not_mem (Nat.le_succ _), Nat.lt_succ_self _, hnoLt⟩
  | ret hop hfold hleave =>
      exact (hs.fold_finish hfold i rfl rfl (by simp) (by simp)).leave hleave
  | other hop => exact hs

/-- Reading a whole program keeps what is built sound. -/
theorem run {i : Nat} {instrs : List Instr} (h : s.run i instrs = .ok s') : s'.WellFormed := by
  induction instrs generalizing i s with
  | nil =>
      injection h with h
      exact h ▸ hs
  | cons instr rest ih =>
      obtain ⟨s₁, hstep, h⟩ := exists_of_bind_eq_ok h
      exact ih (hs.step hstep) h

end

/-- One empty block is where reading starts. -/
theorem start : Importer.fresh.WellFormed := by
  rw [fresh]
  have hblock := Graph.block_newChain
  have hstmt : ∀ s, (({} : Graph).newChain).stmt s = default := by
    intro s
    simp [Graph.newChain, Graph.addBlock, Graph.stmt]
  refine {
    linked := ⟨?_, ?_, ?_, ?_, ?_⟩
    chained := ?_
    planted := ?_
    stack_isValue := by simp
    block_lt := Nat.zero_lt_one
    twins_eq := rfl
    first_eq := rfl }
  · intro s r h
    rw [hstmt] at h
    cases h
  · intro s r h
    rw [hstmt] at h
    cases h
  · intro b s h
    rw [hblock] at h
    cases h
  · intro b s h
    rw [hblock] at h
    cases h
  · intro b c s h
    rw [hblock] at h
    cases h
  · refine Graph.Chained.of_follows Graph.follows_newChain (by simp) ?_
    intro b
    change b ∈ [0] ↔ b < 1
    simp
  · have hroots : (({} : Graph).newChain).statementTrees ++ [] = [] := rfl
    have hall : (({} : Graph).newChain).allTrees [] = [] := rfl
    refine {
      ids_nodup := by simp [hall]
      id_lt := by simp [hall]
      parent_subtree := by simp [hall]
      parent_root := by simp [hroots]
      parent_fresh := fun k _ => Table.get_empty k
      arity_eq := by simp [hall]
      subtree_isValue := by simp [hall]
      root_not_isValue := fun t ht => absurd ht (List.not_mem_nil (a := t))
      edgeIds_nodup := List.nodup_nil
      edge_lt := by simp [hroots] }

end WellFormed

end Importer

/-! ## The notes that go with it -/

/-- What holds of all passes over the edges of a terminator when it holds of each
visit. -/
theorem eachEdge_preserves
    {σ : Type} {P : σ → Prop} {visit : EdgeId → BlockId → EStateM Fault σ Unit}
    (hvisit : ∀ e target s s', P s → visit e target s = .ok () s' → P s')
    {operands : List Operand} {s s' : σ} (hs : P s)
    (h : eachEdge visit operands s = .ok () s') :
    P s' := by
  induction operands generalizing s with
  | nil =>
      injection h with _ h
      exact h ▸ hs
  | cons o rest ih =>
      cases o with
      | edge e target =>
          obtain ⟨⟨⟩, s₁, hfirst, hrest⟩ := exists_of_bind_apply_eq_ok h
          exact ih (hvisit e target s s₁ hs hfirst) hrest
      | literal l => cases h
      | operator op => cases h

/-- Nothing is noted yet that an allocator decides. -/
structure Notes.Fresh (n : Notes) : Prop where
  reg_eq : ∀ t, n.reg t = -1
  spills_eq : ∀ t, (n.tree t).spills = []
  restores_eq : ∀ t, (n.tree t).restores = []
  stored_eq : ∀ t, (n.tree t).stored = []
  edge_eq : ∀ e, n.edge e = {}
  entry_eq : ∀ b, (n.block b).entry = none
  exit_eq : ∀ b, (n.block b).exit = none
  liveIn_eq : ∀ i, (n.interval i).liveIn = none
  intervalCount_eq : n.intervalCount = 0
  crossingsCount_eq : n.crossingsCount = 0

namespace Notes.Fresh

variable {n n' : Notes}

theorem empty : ({} : Notes).Fresh where
  reg_eq t := congrArg TreeNote.reg (Table.get_empty t.id)
  spills_eq t := congrArg TreeNote.spills (Table.get_empty t.id)
  restores_eq t := congrArg TreeNote.restores (Table.get_empty t.id)
  stored_eq t := congrArg TreeNote.stored (Table.get_empty t.id)
  edge_eq e := Table.get_empty e
  entry_eq b := congrArg BlockNote.entry (Table.get_empty b)
  exit_eq b := congrArg BlockNote.exit (Table.get_empty b)
  liveIn_eq i := congrArg Interval.liveIn (Table.get_empty i)
  intervalCount_eq := rfl
  crossingsCount_eq := rfl

/-- Noting predecessors leaves the rest as it is. -/
theorem modifyBlock
    (hn : n.Fresh) (b : BlockId) {f : BlockNote → BlockNote}
    (hentry : ∀ note, (f note).entry = note.entry) (hexit : ∀ note, (f note).exit = note.exit) :
    (n.modifyBlock b f).Fresh := by
  refine ⟨hn.reg_eq, hn.spills_eq, hn.restores_eq, hn.stored_eq, hn.edge_eq, ?_, ?_,
    hn.liveIn_eq, hn.intervalCount_eq, hn.crossingsCount_eq⟩
  · intro c
    rw [Notes.block_modifyBlock]
    split
    · rw [hentry, hn.entry_eq]
    · exact hn.entry_eq c
  · intro c
    rw [Notes.block_modifyBlock]
    split
    · rw [hexit, hn.exit_eq]
    · exact hn.exit_eq c

theorem notePredecessor
    {g : Graph} {b : BlockId} (hn : n.Fresh) (h : Ir.notePredecessor g b n = .ok () n') :
    n'.Fresh := by
  obtain ⟨old, n₂, hget, hexit⟩ := exists_of_bind_apply_eq_ok h
  injection hget with hold hstate
  subst hold hstate
  cases hlast : g.terminator b with
  | error fault =>
      simp only [Ir.eachExit, hlast] at hexit
      cases hexit
  | ok t =>
      simp only [Ir.eachExit, hlast] at hexit
      refine eachEdge_preserves (P := Notes.Fresh) ?_ hn hexit
      intro e target m m' hm hvisit
      injection hvisit with _ hvisit
      subst hvisit
      exact hm.modifyBlock target (fun _ => rfl) (fun _ => rfl)

theorem recomputePredecessors
    {ir : Ir} {g : Graph} (hn : n.Fresh)
    (h : ir.recomputePredecessors g n = .ok () n') :
    n'.Fresh := by
  rw [Ir.recomputePredecessors] at h
  generalize ir.blocks g = bs at h
  induction bs generalizing n with
  | nil =>
      injection h with _ h
      exact h ▸ hn
  | cons b bs ih =>
      obtain ⟨⟨⟩, n₁, hfirst, hrest⟩ := exists_of_bind_apply_eq_ok h
      exact ih (hn.notePredecessor hfirst) hrest

/-- Numbering trees leaves the rest as it is. -/
theorem number (hn : n.Fresh) (start : Nat) (ts : List Tree) : (n.number start ts).Fresh := by
  induction ts generalizing n start with
  | nil => exact hn
  | cons t ts ih =>
      refine ih ?_ (start + 1)
      refine ⟨?_, ?_, ?_, ?_, hn.edge_eq, hn.entry_eq, hn.exit_eq, hn.liveIn_eq,
        hn.intervalCount_eq, hn.crossingsCount_eq⟩
      · intro u
        have hu := hn.reg_eq u
        rw [Notes.reg] at hu ⊢
        rw [Notes.tree_modifyTree]
        split <;> exact hu
      · intro u
        have hu := hn.spills_eq u
        rw [Notes.tree_modifyTree]
        split <;> exact hu
      · intro u
        have hu := hn.restores_eq u
        rw [Notes.tree_modifyTree]
        split <;> exact hu
      · intro u
        have hu := hn.stored_eq u
        rw [Notes.tree_modifyTree]
        split <;> exact hu

end Notes.Fresh

/-- What reading a program gives. -/
theorem Program.import?_cases {p : Program} {m : Imported} (h : p.import? = .ok m) :
    ∃ s n,
      Importer.run 0 p.instrs .fresh = .ok s ∧
      s.WellFormed ∧ m.graph = s.graph ∧
      m.ir = { first := 0, locals := p.locals, count := (s.graph.treesFrom 0).length } ∧
      (⟨0, p.locals, 0⟩ : Ir).recomputePredecessors s.graph {} = .ok () n ∧
      m.notes = n.number 0 (s.graph.treesFrom 0) ∧ m.notes.Fresh := by
  obtain ⟨s, hrun, h⟩ := exists_of_bind_eq_ok h
  have hs : s.WellFormed := Importer.WellFormed.start.run hrun
  dsimp only at h
  split at h
  · cases h
  · next n hpred =>
      injection h with h
      refine ⟨s, n, hrun, hs, ?_, ?_, hpred, ?_, ?_⟩
      · rw [← h]
        refine @shareStores_eq_self id [] s.stores ?_ s.graph
        exact (Importer.run_stores hrun).symm ▸ nodup_storeOffsets 0 p.instrs
      · rw [← h]
        rfl
      · rw [← h]
        rfl
      · rw [← h]
        exact (Notes.Fresh.empty.recomputePredecessors hpred).number 0 _

end LinearScan
