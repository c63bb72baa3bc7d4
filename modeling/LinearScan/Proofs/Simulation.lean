import LinearScan.Proofs.Reading
import LinearScan.Samples

/-!
# Reading a program preserves its meaning

The stack machine takes several steps where the graph machine executes one statement,
and until the last of them nothing changes that can be observed.  Whenever a statement
begins the two machines match, and a matching pair steps to a matching pair.  So both
machines show the same: the same blocks are visited with the same values of the
variables, and the same value is returned.
-/

namespace LinearScan

variable {V : Type} {M : Meaning V} {code : List Instr} {g : Graph}

/-! ## Values of several trees -/

theorem Tree.evals_cons_eq_some
    {locals : Locals V} {t : Tree} {ts : List Tree} {vs : List V} :
    Tree.evals M locals (t :: ts) = some vs ↔
      ∃ v ws, Tree.eval M locals t = some v ∧ Tree.evals M locals ts = some ws ∧ vs = v :: ws := by
  rw [Tree.evals]
  constructor
  · intro h
    obtain ⟨v, hv, hmap⟩ := Option.bind_eq_some_iff.mp h
    obtain ⟨ws, hws, rfl⟩ := Option.map_eq_some_iff.mp hmap
    exact ⟨v, ws, hv, hws, rfl⟩
  · rintro ⟨v, ws, hv, hws, rfl⟩
    rw [hv, hws]
    rfl

theorem Tree.evals_singleton {locals : Locals V} {t : Tree} {v : V}
    (h : Tree.eval M locals t = some v) :
    Tree.evals M locals [t] = some [v] :=
  Tree.evals_cons_eq_some.mpr ⟨v, [], h, by rw [Tree.evals], rfl⟩

/-- The literal of a tree that was read from an instruction is its first operand. -/
theorem literal?_map_literal
    (id : TreeId) (kind : TreeKind) (operands : List Literal) (block : BlockId) (ts : List Tree) :
    (Tree.node id kind (operands.map .literal) block ts).literal? = operands.head? := by
  cases operands <;> rfl

/-! ## Steps that cannot be observed -/

/-- The stack machine is in the state `s'` after `n` steps, and nothing that can be
observed has changed before the last of them. -/
def Reaches (M : Meaning V) (code : List Instr) (n : Nat) (s s' : StackMachine V) : Prop :=
  (StackMachine.step M code)^[n] s = s' ∧
    ∀ k < n, ((StackMachine.step M code)^[k] s).shown = s.shown

section

variable {n : Nat} {s s' : StackMachine V} (h : Reaches M code n s s') (hshown : s'.shown = s.shown)
include h hshown

theorem Reaches.step : Reaches M code (n + 1) s (s'.step M code) := by
  obtain ⟨hn, hbefore⟩ := h
  constructor
  · rw [Function.iterate_succ_apply', hn]
  · intro k hk
    rcases Nat.lt_succ_iff_lt_or_eq.mp hk with hk | rfl
    · exact hbefore k hk
    · rw [hn, hshown]

/-- The stack machine executes the next instruction. -/
theorem Reaches.exec {instr : Instr} (hrunning : s.shown.status = .running)
    (hinstr : code[s'.pc]? = some instr) : Reaches M code (n + 1) s (s'.exec M instr) := by
  rw [← StackMachine.step_eq_exec (hshown ▸ hrunning) hinstr]
  exact h.step hshown

end

/-- Instructions that put trees on an empty stack put the values of these trees on the
stack of the machine. -/
theorem Stacks.run
    {i j : Nat} {ts : List Tree} (h : Stacks code i ts j) {s : StackMachine V}
    (hpc : s.pc = i) (hstack : s.stack = []) (hrunning : s.shown.status = .running) :
    ∃ n vs, Tree.evals M s.shown.locals ts = some vs ∧ Reaches M code n s ⟨j, vs, s.shown⟩ := by
  induction h with
  | nil =>
      refine ⟨0, [], by rw [Tree.evals], ?_, by simp⟩
      rw [Function.iterate_zero_apply, ← hpc, ← hstack]
  | skip _ hinstr hop ih =>
      obtain ⟨n, vs, hvs, hreach⟩ := ih
      refine ⟨n + 1, vs, hvs, ?_⟩
      have hnext := hreach.exec rfl hrunning hinstr
      rwa [StackMachine.exec, hop] at hnext
  | @ldLocal ts j instr id block _ hinstr hop ih =>
      obtain ⟨n, vs, hvs, hreach⟩ := ih
      refine ⟨n + 1, s.shown.locals instr.operands.head? :: vs, ?_, ?_⟩
      · refine Tree.evals_cons_eq_some.mpr ⟨_, vs, ?_, hvs, rfl⟩
        rw [← literal?_map_literal id .ldLocal instr.operands block []]
        rfl
      · have hnext := hreach.exec rfl hrunning hinstr
        rwa [StackMachine.exec, hop] at hnext
  | @const ts j instr id block _ hinstr hop ih =>
      obtain ⟨n, vs, hvs, hreach⟩ := ih
      refine ⟨n + 1, M.constant instr.operands.head? :: vs, ?_, ?_⟩
      · refine Tree.evals_cons_eq_some.mpr ⟨_, vs, ?_, hvs, rfl⟩
        rw [← literal?_map_literal id .const instr.operands block []]
        rfl
      · have hnext := hreach.exec rfl hrunning hinstr
        rwa [StackMachine.exec, hop] at hnext
  | @binOp t u ts j instr op id block _ hinstr hop ih =>
      obtain ⟨n, vs, hvs, hreach⟩ := ih
      obtain ⟨b, ws, hb, hws, rfl⟩ := Tree.evals_cons_eq_some.mp hvs
      obtain ⟨a, rest, ha, hrest, rfl⟩ := Tree.evals_cons_eq_some.mp hws
      refine ⟨n + 1, M.apply op a b :: rest, ?_, ?_⟩
      · refine Tree.evals_cons_eq_some.mpr ⟨_, rest, ?_, hrest, rfl⟩
        have hsubtrees : Tree.evals M s.shown.locals [t, u] = some [a, b] := by
          exact Tree.evals_cons_eq_some.mpr ⟨a, [b], ha, Tree.evals_singleton hb, rfl⟩
        rw [Tree.eval, hsubtrees]
        rfl
      · have hnext := hreach.exec rfl hrunning hinstr
        rwa [StackMachine.exec, hop] at hnext


/-- The case of one tree. -/
theorem Stacks.run_one
    {j : Nat} {t : Tree} {s : StackMachine V} (h : Stacks code s.pc [t] j)
    (hstack : s.stack = []) (hrunning : s.shown.status = .running) :
    ∃ n v, Tree.evals M s.shown.locals [t] = some [v] ∧
      Reaches M code n s ⟨j, [v], s.shown⟩ := by
  obtain ⟨n, vs, hvs, hreach⟩ := h.run (M := M) rfl hstack hrunning
  obtain ⟨v, ws, hv, hws, rfl⟩ := Tree.evals_cons_eq_some.mp hvs
  obtain rfl : [] = ws := Option.some.inj (by rw [← hws, Tree.evals])
  exact ⟨n, v, hvs, hreach⟩

/-! ## Matching states -/

/-- The two machines show the same, and both have returned or both are about to execute
the same statement. -/
inductive Matches (code : List Instr) (g : Graph) (s : StackMachine V) (u : GraphMachine V) :
    Prop where
  | running {j : Nat} (hshown : s.shown = u.shown) (hrunning : s.shown.status = .running)
      (hstack : s.stack = []) (hreads : Reads code g s.pc u.rest j) (hleaving : Leaving u.rest)
  | returned {v : V} (hshown : s.shown = u.shown) (hreturned : s.shown.status = .returned v)

namespace Matches

variable {s : StackMachine V} {u : GraphMachine V}

theorem shown_eq (h : Matches code g s u) : s.shown = u.shown := by
  cases h with
  | running hshown => exact hshown
  | returned hshown => exact hshown

theorem status_ne_stuck (h : Matches code g s u) : u.shown.status ≠ .stuck := by
  rw [← h.shown_eq]
  cases h with
  | running _ hrunning =>
      rw [hrunning]
      exact fun h => nomatch h
  | returned _ hreturned =>
      rw [hreturned]
      exact fun h => nomatch h

/-- At the start of a block the machines match. -/
theorem enter
    {b : BlockId} (hb : Complete code g b) {shown : Observation V}
    (hrunning : shown.status = .running) :
    Matches code g ⟨(g.block b).offset.toNat, [], shown.arrive (g.block b).offset⟩
      (.enter g b shown) := by
  obtain ⟨i, j, hoffset, hreads, hleaving⟩ := hb
  refine .running rfl hrunning rfl (j := j) ?_ hleaving
  change Reads code g (g.block b).offset.toNat (g.rootsOf b) j
  rw [hoffset, Int.toNat_natCast]
  exact hreads

section

variable (hcomplete : ∀ b : Nat, b < g.blockCount → Complete code g b)
include hcomplete

/-- Both machines take the same jump. -/
theorem jump {instr : Instr} {operands : List Operand} {k : Nat} {e : EdgeId} {target : BlockId}
    (hnames : Names g instr k target) (hedge : operands[k]? = some (.edge e target))
    (hshown : s.shown = u.shown) (hrunning : s.shown.status = .running) :
    Matches code g (s.jump instr.operands k []) (u.follow g operands k) := by
  obtain ⟨hlt, hoperand⟩ := hnames
  have hb := hcomplete target hlt
  have hnonneg : 0 ≤ (g.block target).offset := by
    obtain ⟨i, -, hoffset, -⟩ := hb
    rw [hoffset]
    exact Int.natCast_nonneg i
  rw [StackMachine.jump, hoperand, GraphMachine.follow, hedge, ← hshown]
  simp only [if_pos hnonneg]
  exact enter hb hrunning

/-- One statement: the stack machine follows in at least one step. -/
theorem statement {t : Tree} {rest : List Tree} {j k : Nat} (ht : Statement code g s.pc t k)
    (hrest : u.rest = t :: rest) (hreads : Reads code g k rest j) (hleaving : Leaving (t :: rest))
    (hshown : s.shown = u.shown) (hrunning : s.shown.status = .running) (hstack : s.stack = []) :
    ∃ n s', Reaches M code (n + 1) s s' ∧ Matches code g s' (u.step M g) := by
  have hrunning' : u.shown.status = .running := hshown ▸ hrunning
  cases ht with
  | @stLocal v k instr id block hv hinstr hop =>
      obtain ⟨n, a, ha, hreach⟩ := hv.run_one (M := M) hstack hrunning
      refine ⟨n, _, hreach.exec rfl hrunning hinstr, ?_⟩
      rw [GraphMachine.step_eq_exec hrunning' hrest (hshown ▸ ha), StackMachine.exec, hop]
      refine .running ?_ hrunning rfl hreads (hleaving.tail rfl)
      change s.shown.assign _ a = u.shown.assign _ a
      rw [hshown, literal?_map_literal]
  | discard hv hinstr hop =>
      obtain ⟨n, a, ha, hreach⟩ := hv.run_one (M := M) hstack hrunning
      refine ⟨n, _, hreach.exec rfl hrunning hinstr, ?_⟩
      rw [GraphMachine.step_eq_exec hrunning' hrest (hshown ▸ ha), StackMachine.exec, hop]
      exact .running hshown hrunning rfl hreads (hleaving.tail rfl)
  | jmp h hinstr hop htarget =>
      obtain ⟨n, vs, hvs, hreach⟩ := h.run (M := M) rfl hstack hrunning
      obtain rfl : [] = vs := Option.some.inj (by rw [← hvs, Tree.evals])
      refine ⟨n, _, hreach.exec rfl hrunning hinstr, ?_⟩
      rw [GraphMachine.step_eq_exec hrunning' hrest (hshown ▸ hvs), StackMachine.exec, hop]
      simp only [GraphMachine.exec, Tree.kind, Tree.operands]
      exact jump hcomplete htarget rfl hshown hrunning
  | branch h hinstr hop hyes hno =>
      obtain ⟨n, a, ha, hreach⟩ := h.run_one (M := M) hstack hrunning
      refine ⟨n, _, hreach.exec rfl hrunning hinstr, ?_⟩
      rw [GraphMachine.step_eq_exec hrunning' hrest (hshown ▸ ha), StackMachine.exec, hop]
      simp only [GraphMachine.exec, Tree.kind, Tree.operands]
      by_cases hzero : M.isZero a = true
      · simp only [if_pos hzero]
        exact jump hcomplete hno rfl hshown hrunning
      · simp only [if_neg hzero]
        exact jump hcomplete hyes rfl hshown hrunning
  | ret h hinstr hop =>
      obtain ⟨n, vs, hvs, hreach⟩ := h.run (M := M) rfl hstack hrunning
      obtain ⟨a, ws, ha, -, rfl⟩ := Tree.evals_cons_eq_some.mp hvs
      refine ⟨n, _, hreach.exec rfl hrunning hinstr, ?_⟩
      rw [GraphMachine.step_eq_exec hrunning' hrest (hshown ▸ Tree.evals_singleton ha),
        StackMachine.exec, hop]
      refine .returned ?_ rfl
      change { s.shown with status := .returned a } = { u.shown with status := .returned a }
      rw [hshown]

/-- Matching machines step to matching machines. -/
theorem step (h : Matches code g s u) :
    ∃ n s', Reaches M code (n + 1) s s' ∧ Matches code g s' (u.step M g) := by
  cases h with
  | returned hshown hreturned =>
      refine ⟨0, s, ⟨StackMachine.step_of_returned hreturned, ?_⟩, ?_⟩
      · intro k hk
        obtain rfl : k = 0 := Nat.lt_one_iff.mp hk
        rfl
      · rw [GraphMachine.step_of_returned (hshown ▸ hreturned)]
        exact .returned hshown hreturned
  | running hshown hrunning hstack hreads hleaving =>
      generalize hrest : u.rest = rest at hreads hleaving
      cases hreads with
      | nil =>
          obtain ⟨t, ht, -⟩ := hleaving
          cases ht
      | cons hstatement hreads =>
          exact statement hcomplete hstatement hrest hreads hleaving hshown hrunning hstack

/-- However many statements the graph machine executes, the stack machine gets to a
matching state. -/
theorem iterate (h : Matches code g s u) (n : Nat) :
    ∃ k, Matches code g ((StackMachine.step M code)^[k] s) ((GraphMachine.step M g)^[n] u) := by
  induction n generalizing s u with
  | zero => exact ⟨0, h⟩
  | succ n ih =>
      obtain ⟨m, s', ⟨hreach, -⟩, hmatch⟩ := h.step (M := M) hcomplete
      obtain ⟨k, hk⟩ := ih hmatch
      refine ⟨k + (m + 1), ?_⟩
      rw [Function.iterate_add_apply, hreach, Function.iterate_succ_apply]
      exact hk

/-- However many steps the stack machine takes, the graph machine shows the same at some
time. -/
theorem exists_shown_eq (h : Matches code g s u) (k : Nat) :
    ∃ n, ((GraphMachine.step M g)^[n] u).shown = ((StackMachine.step M code)^[k] s).shown := by
  induction k using Nat.strongRecOn generalizing s u with
  | ind k ih =>
      obtain ⟨m, s', ⟨hreach, hsilent⟩, hmatch⟩ := h.step (M := M) hcomplete
      by_cases hk : k < m + 1
      · refine ⟨0, ?_⟩
        rw [hsilent k hk, Function.iterate_zero_apply]
        exact h.shown_eq.symm
      · -- The statement is over: what is left of the `k` steps starts at the next one.
        obtain ⟨n, hn⟩ := ih (k - (m + 1)) (by omega) hmatch
        refine ⟨n + 1, ?_⟩
        rw [Function.iterate_succ_apply, hn, ← hreach, ← Function.iterate_add_apply,
          Nat.sub_add_cancel (Nat.not_lt.mp hk)]

end

end Matches

/-! ## Runs from the start -/

/-- What the stack machine shows after `k` steps of a program. -/
def Program.observe (p : Program) (M : Meaning V) (locals : Locals V) (k : Nat) : Observation V :=
  ((StackMachine.step M p.instrs)^[k] (.start locals)).shown

/-- What the graph machine shows after `n` statements of a program that was read. -/
def Imported.observe (m : Imported) (M : Meaning V) (locals : Locals V) (n : Nat) :
    Observation V :=
  ((GraphMachine.step M m.graph)^[n] (.start m.graph m.ir.first locals)).shown

/-- The stack is empty behind every return. -/
def RetsEmpty (code : List Instr) : Prop :=
  ∀ i < code.length, (code[i]?).map Instr.opcode = some .ret → depth (code.take (i + 1)) = 0

instance (code : List Instr) : Decidable (RetsEmpty code) :=
  inferInstanceAs (Decidable (∀ i < code.length, _ → _))

/-- Reading a program preserves its meaning, whatever the operators mean and whatever
the variables hold: each machine shows, sooner or later, all that the other one shows.
What they show tells the blocks apart, and neither of them ever gets stuck. -/
theorem Program.import?_preserves_meaning
    (p : Program) (m : Imported) (h : p.import? = .ok m)
    (hjumps : JumpsBehindExits p.instrs) (hrets : RetsEmpty p.instrs)
    (M : Meaning V) (locals : Locals V) :
    (∀ n, ∃ k, p.observe M locals k = m.observe M locals n) ∧
      (∀ k, ∃ n, m.observe M locals n = p.observe M locals k) ∧
      (∀ n, (m.observe M locals n).status ≠ .stuck) ∧
      ∀ b ∈ m.ir.blocks m.graph, ∀ c ∈ m.ir.blocks m.graph,
        (m.graph.block b).offset = (m.graph.block c).offset → b = c := by
  have hret : ∀ k instr, k + 1 < p.instrs.length → p.instrs[k]? = some instr →
      instr.opcode = .ret → depth (p.instrs.take (k + 1)) = 0 := by
    intro k instr hk hinstr hop
    refine hrets k (Nat.lt_of_succ_lt hk) ?_
    rw [hinstr, Option.map_some, hop]
  obtain ⟨hfirst, hoffset, hpos, hrising, -, hcomplete⟩ := Program.import?_complete h hjumps hret
  have hstart : Matches p.instrs m.graph (.start locals) (.start m.graph m.ir.first locals) := by
    have hrunning : (⟨[], locals, .running⟩ : Observation V).status = .running := rfl
    have henter := Matches.enter (hcomplete 0 hpos) hrunning
    rw [hoffset] at henter
    rw [hfirst]
    exact henter
  refine ⟨?_, ?_, ?_, ?_⟩
  · intro n
    obtain ⟨k, hk⟩ := hstart.iterate (M := M) hcomplete n
    exact ⟨k, hk.shown_eq⟩
  · intro k
    exact hstart.exists_shown_eq hcomplete k
  · intro n
    obtain ⟨k, hk⟩ := hstart.iterate (M := M) hcomplete n
    exact hk.status_ne_stuck
  · intro b hb c hc heq
    exact hrising.eq_of_offset_eq hb hc heq

/-- Arithmetic on integers. -/
def Meaning.integers : Meaning Int where
  constant
    | some (.num n) => n
    | _ => 0
  apply
    | .add, a, b => a + b
    | .sub, a, b => a - b
    | .mul, a, b => a * b
    | .div, a, b => a / b
    | .eq, a, b => if a = b then 1 else 0
  isZero v := v == 0

/-- The sum of the numbers from `n` down to one. -/
def Samples.countdown (n : Int) : Program where
  locals := 2
  instrs :=
    [instr .push [n], instr .stLocal [0], instr .push [0], instr .stLocal [1], instr .jmp [5],
      instr .ldLocal [1], instr .ldLocal [0], instr (.binary .add), instr .stLocal [1],
      instr .ldLocal [0], instr .push [1], instr (.binary .sub), instr .stLocal [0],
      instr .ldLocal [0], instr .branch [5, 15],
      instr .ldLocal [1], instr .ret]

/-- A loop with a backward jump to a block that was made early as the target of a forward
one: the graph machine returns the sum that the stack machine returns. -/
theorem Program.import?_preserves_meaning_countdown :
    ∃ m, (Samples.countdown 3).import? = .ok m ∧
      JumpsBehindExits (Samples.countdown 3).instrs ∧ RetsEmpty (Samples.countdown 3).instrs ∧
      ∃ n, (m.observe .integers (fun _ => 0) n).status = .returned 6 ∧
        (m.observe .integers (fun _ => 0) n).visits.map Prod.fst = [0, 5, 5, 5, 15] := by
  obtain ⟨m, hm, -⟩ : ∃ m, (Samples.countdown 3).import? = .ok m ∧ True := by decide +kernel
  have hjumps : JumpsBehindExits (Samples.countdown 3).instrs := by decide +kernel
  have hrets : RetsEmpty (Samples.countdown 3).instrs := by decide +kernel
  have hstack : ((Samples.countdown 3).observe .integers (fun _ => 0) 37).status = .returned 6 ∧
      ((Samples.countdown 3).observe .integers (fun _ => 0) 37).visits.map Prod.fst =
        [0, 5, 5, 5, 15] := by
    decide +kernel
  obtain ⟨-, hgraph, -, -⟩ :=
    Program.import?_preserves_meaning _ m hm hjumps hrets .integers (fun _ => 0)
  obtain ⟨n, hn⟩ := hgraph 37
  exact ⟨m, hm, hjumps, hrets, n, by rw [hn]; exact hstack.1, by rw [hn]; exact hstack.2⟩

end LinearScan
