import LinearScan.Proofs.Simulation

/-!
# Straight-line programs

A program without jumps that ends with its only return is read into a single block.
What the block computes is then a matter of its statements one after the other: `Runs`
says so, and it is what the stack machine does with the program.
-/

namespace LinearScan

/-- Whether a load or a store names one of the variables by its number. -/
def Instr.inRange (locals : Int) (instr : Instr) : Bool :=
  match instr.opcode, instr.operands.head? with
  | .ldLocal, some (.num k) | .stLocal, some (.num k) => 0 ≤ k && k < locals
  | .ldLocal, _ | .stLocal, _ => false
  | _, _ => true

/-- A program without jumps that ends with its only return, all of whose loads and stores
name variables it has. -/
def Program.StraightLine (p : Program) : Prop :=
  (∀ instr ∈ p.instrs.dropLast, instr.opcode.leaves = false) ∧
    p.instrs.getLast?.map Instr.opcode = some .ret ∧
    ∀ instr ∈ p.instrs, instr.inRange p.locals = true

instance (p : Program) : Decidable p.StraightLine :=
  inferInstanceAs (Decidable (_ ∧ _ ∧ _))

namespace Program.StraightLine

variable {p : Program} {i : Nat} {instr : Instr}

/-- Only the last instruction leaves the block. -/
theorem not_leaves (hp : p.StraightLine) (hinstr : p.instrs[i]? = some instr)
    (hi : i + 1 < p.instrs.length) :
    instr.opcode.leaves = false := by
  refine hp.1 instr (List.mem_of_getElem? (i := i) ?_)
  rw [List.getElem?_dropLast, if_pos (by omega), hinstr]

/-- The last instruction is a return. -/
theorem opcode_eq_ret (hp : p.StraightLine) (hinstr : p.instrs[i]? = some instr)
    (hleaves : instr.opcode.leaves = true) :
    instr.opcode = .ret := by
  have hi : i < p.instrs.length := (List.getElem?_eq_some_iff.mp hinstr).1
  have hlast : i + 1 = p.instrs.length := by
    by_contra hne
    rw [hp.not_leaves hinstr (by omega)] at hleaves
    cases hleaves
  have hret := hp.2.1
  rw [List.getLast?_eq_getElem?, ← hlast, Nat.add_sub_cancel, hinstr] at hret
  exact Option.some.inj hret

theorem jumpsBehindExits (hp : p.StraightLine) : JumpsBehindExits p.instrs := by
  intro instr hinstr offset hoffset
  obtain ⟨i, hi⟩ := List.getElem?_of_mem hinstr
  rw [Instr.targets] at hoffset
  cases hop : instr.opcode with
  | jmp =>
      have hret := hp.opcode_eq_ret hi (by rw [hop]; rfl)
      rw [hop] at hret
      cases hret
  | branch =>
      have hret := hp.opcode_eq_ret hi (by rw [hop]; rfl)
      rw [hop] at hret
      cases hret
  | _ =>
      rw [hop] at hoffset
      cases hoffset

end Program.StraightLine

theorem Statement.lt {code : List Instr} {g : Graph} {i j : Nat} {t : Tree}
    (h : Statement code g i t j) :
    i < code.length := by
  have hlt : ∀ {ts : List Tree} {k : Nat} {instr : Instr}, Stacks code i ts k →
      code[k]? = some instr → i < code.length := by
    intro ts k instr hstacks hinstr
    exact Nat.lt_of_le_of_lt hstacks.le (List.getElem?_eq_some_iff.mp hinstr).1
  cases h with
  | stLocal h hinstr _ => exact hlt h hinstr
  | discard h hinstr _ => exact hlt h hinstr
  | jmp h hinstr _ _ => exact hlt h hinstr
  | branch h hinstr _ _ _ => exact hlt h hinstr
  | ret h hinstr _ => exact hlt h hinstr

theorem eq_singleton_of_nodup {bs : List Nat} (hnodup : bs.Nodup) {b : Nat}
    (honly : ∀ c ∈ bs, c = b) (hb : b ∈ bs) :
    bs = [b] := by
  cases bs with
  | nil => cases hb
  | cons c rest =>
      obtain rfl := honly c (by simp)
      cases rest with
      | nil => rfl
      | cons d rest =>
          obtain rfl := honly d (by simp)
          simp at hnodup

/-- A straight-line program is read into one block. -/
theorem Program.import?_straightLine
    {p : Program} {m : Imported} (h : p.import? = .ok m) (hp : p.StraightLine) :
    m.ir.blocks m.graph = [0] ∧
      ∃ j, Reads p.instrs m.graph 0 (m.graph.rootsOf 0) j ∧ Leaving (m.graph.rootsOf 0) := by
  have hret : ∀ k instr, k + 1 < p.instrs.length → p.instrs[k]? = some instr →
      instr.opcode = .ret → depth (p.instrs.take (k + 1)) = 0 := by
    intro k instr hk hinstr hop
    have hstay := hp.not_leaves hinstr hk
    rw [hop] at hstay
    cases hstay
  obtain ⟨hfirst, hoffset, hpos, hrising, htarget, hcomplete⟩ :=
    Program.import?_complete h hp.jumpsBehindExits hret
  obtain ⟨s, -, -, hwf, hgraph, hir, -⟩ := Program.import?_cases h
  have hblocks : m.ir.blocks m.graph = s.graph.blocksFrom 0 := by
    rw [hgraph, hir]
    rfl
  have hchained : s.graph.Chained 0 := hwf.first_eq ▸ hwf.chained
  -- A further block would start behind the return, where there is no statement.
  have honly : ∀ b ∈ m.ir.blocks m.graph, b = 0 := by
    intro b hb
    have hmem : (0 : Nat) ∈ m.ir.blocks m.graph := by
      rw [hblocks, hchained.mem_iff, ← hgraph]
      exact hpos
    refine hrising.eq_of_offset_eq hb hmem ?_
    rw [hoffset]
    refine (htarget b hb).resolve_right ?_
    rintro ⟨hbpos, hleaves⟩
    obtain ⟨instr, hinstr, hexit⟩ := (Option.any_eq_true _ _).mp hleaves
    have hbcount : b < m.graph.blockCount := by
      rw [hgraph, ← hchained.mem_iff, ← hblocks]
      exact hb
    obtain ⟨i, j, hi, hreads, t, hlast, -⟩ := hcomplete b hbcount
    have hlt : i < p.instrs.length := by
      generalize m.graph.rootsOf b = ts at hreads hlast
      cases hreads with
      | nil => cases hlast
      | cons hstatement _ => exact hstatement.lt
    rw [hp.not_leaves hinstr (by omega)] at hexit
    cases hexit
  obtain ⟨i, j, hi, hreads, hleaving⟩ := hcomplete 0 hpos
  obtain rfl : 0 = i := Int.ofNat.inj (hoffset.symm.trans hi)
  refine ⟨?_, j, hreads, hleaving⟩
  rw [hblocks] at honly ⊢
  exact eq_singleton_of_nodup hchained.nodup honly ((hchained.mem_iff 0).mpr (hgraph ▸ hpos))

/-! ## Statements one after the other -/

/-- Executed one after the other, with `locals` in the variables, the statements return
the value `v`. -/
inductive Runs {V : Type} (M : Meaning V) : Locals V → List Tree → V → Prop where
  | ret {locals : Locals V} {t : Tree} {rest : List Tree} {v : V} (hkind : t.kind = .ret)
      (hvalue : Tree.evals M locals t.subtrees = some [v]) :
      Runs M locals (t :: rest) v
  | stLocal {locals : Locals V} {t : Tree} {rest : List Tree} {v w : V} (hkind : t.kind = .stLocal)
      (hvalue : Tree.evals M locals t.subtrees = some [v])
      (hrest : Runs M (Function.update locals t.literal? v) rest w) :
      Runs M locals (t :: rest) w
  | discard {locals : Locals V} {t : Tree} {rest : List Tree} {v w : V} (hkind : t.kind = .discard)
      (hvalue : Tree.evals M locals t.subtrees = some [v]) (hrest : Runs M locals rest w) :
      Runs M locals (t :: rest) w

/-- The stack machine returns what the statements return. -/
theorem Reads.runs
    {V : Type} {M : Meaning V} {p : Program} (hp : p.StraightLine) {g : Graph} {i j : Nat}
    {ts : List Tree} (h : Reads p.instrs g i ts j) (hleaving : Leaving ts)
    {s : StackMachine V} (hpc : s.pc = i) (hstack : s.stack = [])
    (hrunning : s.shown.status = .running) :
    ∃ v, Runs M s.shown.locals ts v ∧
      ∃ k, ((StackMachine.step M p.instrs)^[k] s).shown.status = .returned v := by
  induction h generalizing s with
  | nil i =>
      obtain ⟨t, ht, -⟩ := hleaving
      cases ht
  | cons hstatement _ ih =>
      subst hpc
      cases hstatement with
      | @stLocal v k instr id block hv hinstr hop =>
          obtain ⟨n, a, ha, hreach⟩ := hv.run_one (M := M) hstack hrunning
          have hnext := (hreach.exec rfl hrunning hinstr).1
          rw [StackMachine.exec, hop] at hnext
          obtain ⟨w, hruns, m, hm⟩ := ih (hleaving.tail rfl)
            (s := ⟨k + 1, [], s.shown.assign instr.operands.head? a⟩) rfl rfl hrunning
          refine ⟨w, .stLocal rfl ha ?_, m + (n + 1), ?_⟩
          · rw [literal?_map_literal]
            exact hruns
          · rw [Function.iterate_add_apply, hnext]
            exact hm
      | @discard v k instr id block hv hinstr hop =>
          obtain ⟨n, a, ha, hreach⟩ := hv.run_one (M := M) hstack hrunning
          have hnext := (hreach.exec rfl hrunning hinstr).1
          rw [StackMachine.exec, hop] at hnext
          obtain ⟨w, hruns, m, hm⟩ := ih (hleaving.tail rfl) (s := ⟨k + 1, [], s.shown⟩)
            rfl rfl hrunning
          refine ⟨w, .discard rfl ha hruns, m + (n + 1), ?_⟩
          rw [Function.iterate_add_apply, hnext]
          exact hm
      | jmp _ hinstr hop _ =>
          have hret := hp.opcode_eq_ret hinstr (by rw [hop]; rfl)
          rw [hop] at hret
          cases hret
      | branch _ hinstr hop _ _ =>
          have hret := hp.opcode_eq_ret hinstr (by rw [hop]; rfl)
          rw [hop] at hret
          cases hret
      | ret hv hinstr hop =>
          obtain ⟨n, vs, hvs, hreach⟩ := hv.run (M := M) rfl hstack hrunning
          obtain ⟨a, ws, ha, -, rfl⟩ := Tree.evals_cons_eq_some.mp hvs
          refine ⟨a, .ret rfl (Tree.evals_singleton ha), n + 1, ?_⟩
          rw [(hreach.exec rfl hrunning hinstr).1, StackMachine.exec, hop]

end LinearScan
