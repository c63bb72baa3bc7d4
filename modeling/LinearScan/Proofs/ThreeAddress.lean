import LinearScan.Proofs.Flat

/-!
# Three-address code

A line of three-address code stores a constant, a variable or the result of one operation on two
variables, or it computes a value and drops it.  Such code is flat, whatever its length and
whichever variables its lines read and overwrite.  Hence it is read and scanned, be it with a
single register, and the records of the registers agree all along.
-/

namespace LinearScan

namespace ThreeAddress

/-- An operand of three-address code over `count` variables. -/
inductive Atom (count : Nat) where
  | constant (value : Literal)
  | slot (k : Fin count)

/-- A line of three-address code over `count` variables. -/
inductive Line (count : Nat) where
  /-- Store a constant or a variable. -/
  | assign (target : Fin count) (source : Atom count)
  /-- Store the result of an operation. -/
  | operate (target : Fin count) (op : Operator) (left right : Fin count)
  /-- Drop a constant or the value of a variable. -/
  | discard (source : Atom count)

variable {count : Nat}

/-- The instruction that puts a variable on the stack. -/
def load (k : Fin count) : Instr :=
  ⟨.ldLocal, [.num k]⟩

/-- The instruction that takes a variable off the stack. -/
def store (k : Fin count) : Instr :=
  ⟨.stLocal, [.num k]⟩

/-- The instruction that puts an operand on the stack. -/
def Atom.instr : Atom count → Instr
  | .constant value => ⟨.push, [value]⟩
  | .slot k => load k

/-- The instructions of a line. -/
def Line.code : Line count → List Instr
  | .assign target source => [source.instr, store target]
  | .operate target op left right => [load left, load right, ⟨.binary op, []⟩, store target]
  | .discard source => [source.instr, ⟨.pop, []⟩]

/-- The program that runs through the lines and returns an operand. -/
def program (locals : Int) (lines : List (Line locals.toNat)) (result : Atom locals.toNat) :
    Program :=
  { locals, instrs := lines.flatMap Line.code ++ [result.instr, ⟨.ret, []⟩] }

end ThreeAddress

theorem Graph.terminator_append (g : Graph) (b : BlockId) (offset : Int) (t : Tree) :
    (g.append b offset t).terminator b = .ok t := by
  simp [terminator, append_block, append_stmt_tree]

/-! ## Reading a part of a program -/

namespace Importer

variable {s s₁ s' : Importer} {i n : Nat} {instr : Instr} {code code' : List Instr}
  {kind : TreeKind} {operands : List Operand} {t u : Tree}

/-- Reading `code`, of which the first instruction has offset `i` and behind which the program
goes on, leads from `s` to `s'`. -/
def Leads (i : Nat) (code : List Instr) (s s' : Importer) : Prop :=
  ∀ rest, rest ≠ [] → s.run i (code ++ rest) = s'.run (i + code.length) rest

namespace Leads

theorem nil (i : Nat) (s : Importer) : Leads i [] s s :=
  fun _ _ => rfl

theorem cons (hstep : s.step i false instr = .ok s₁) (h : Leads (i + 1) code s₁ s') :
    Leads i (instr :: code) s s' := by
  intro rest hrest
  have hlast : (code ++ rest).isEmpty = false := by simp [hrest]
  rw [List.cons_append, run, hlast, hstep, ok_bind, h rest hrest, List.length_cons,
    Nat.add_right_comm, Nat.add_assoc]

theorem append (h : Leads i code s s₁) (h' : Leads (i + code.length) code' s₁ s') :
    Leads i (code ++ code') s s' := by
  intro rest hrest
  rw [List.append_assoc, h _ (by simp [hrest]), h' rest hrest, List.length_append, Nat.add_assoc]

end Leads

/-! ## What is read is flat -/

/-- Everything that was read so far is flat and stands in the first block, the only one. -/
structure Plain (s : Importer) : Prop where
  block_eq : s.block = 0
  blockCount_eq : s.graph.blockCount = 1
  flat : ∀ t ∈ s.graph.allTrees s.stack, t.Flat

namespace Plain

theorem start : Plain .fresh := by
  constructor
  · rfl
  · rfl
  · intro t ht
    cases ht

/-- A tree is flat if it has one operand at most, or takes variables only. -/
theorem fold (hs : s.Plain) (hn : n ≤ s.stack.length)
    (hnew : n ≤ 1 ∨ ∀ u ∈ s.stack.take n, u.kind = .ldLocal) (kind : TreeKind)
    (operands : List Operand) :
    ∃ t s', s.fold n kind operands = .ok s' ∧ s'.stack = t :: s.stack.drop n ∧
      t.kind = kind ∧ t.operands = operands ∧ s'.Plain := by
  have hfold : s.fold n kind operands = .ok { s with
      graph := (s.graph.newTree kind operands s.block (s.stack.take n).reverse).2
      stack := (s.graph.newTree kind operands s.block (s.stack.take n).reverse).1 ::
        s.stack.drop n } := by
    rw [Importer.fold, if_neg (Nat.not_lt.mpr hn)]
  refine ⟨_, _, hfold, rfl, rfl, rfl, hs.block_eq, hs.blockCount_eq, ?_⟩
  intro t ht
  rw [(Graph.Planted.allTrees_newTree_perm s.graph kind operands s.block s.stack n).mem_iff,
    List.mem_cons] at ht
  rcases ht with rfl | ht
  · intro u hu
    have hmem : u ∈ (s.stack.take n).reverse := hu
    rcases hnew with hle | hload
    · right
      have hone : (s.stack.take n).reverse.length = 1 := by
        have hpos := List.length_pos_of_mem hmem
        simp only [List.length_reverse, List.length_take] at hpos ⊢
        omega
      obtain ⟨v, hv⟩ := List.length_eq_one_iff.mp hone
      rw [hv, List.mem_singleton] at hmem
      exact hmem ▸ hv
    · left
      apply hload
      exact List.mem_reverse.mp hmem
  · exact hs.flat t ht

theorem finish (hs : s.Plain) (i : Nat) : (s.finish i).Plain := by
  constructor
  · rw [Importer.finish]
    split <;> exact hs.block_eq
  · rw [Importer.finish]
    split
    · exact hs.blockCount_eq
    · rw [Graph.append_blockCount]
      exact hs.blockCount_eq
  · rw [allTrees_finish]
    exact hs.flat

theorem noteStore (hs : s.Plain) (i : Nat) : (s.noteStore i).Plain := by
  rw [Importer.noteStore]
  split
  · exact hs
  · exact ⟨hs.block_eq, hs.blockCount_eq, hs.flat⟩

/-! ## Single instructions -/

theorem step_load (hs : s.Plain) (i : Nat) (operands : List Literal) :
    ∃ t s', s.step i false ⟨.ldLocal, operands⟩ = .ok s' ∧ s'.stack = t :: s.stack ∧
      t.kind = .ldLocal ∧ s'.Plain := by
  obtain ⟨t, s', hfold, hstack, hkind, -, hs'⟩ := hs.fold (Nat.zero_le _) (Or.inl (Nat.zero_le _))
    .ldLocal (operands.map .literal)
  refine ⟨t, s', ?_, hstack, hkind, hs'⟩
  simp only [step, hfold, ok_bind]
  rfl

theorem step_push (hs : s.Plain) (i : Nat) (operands : List Literal) :
    ∃ t s', s.step i false ⟨.push, operands⟩ = .ok s' ∧ s'.stack = t :: s.stack ∧ s'.Plain := by
  obtain ⟨t, s', hfold, hstack, -, -, hs'⟩ := hs.fold (Nat.zero_le _) (Or.inl (Nat.zero_le _))
    .const (operands.map .literal)
  refine ⟨t, s', ?_, hstack, hs'⟩
  simp only [step, hfold, ok_bind]
  rfl

theorem step_binary (hs : s.Plain) (hstack : s.stack = [t, u]) (ht : t.kind = .ldLocal)
    (hu : u.kind = .ldLocal) (i : Nat) (op : Operator) :
    ∃ v s', s.step i false ⟨.binary op, []⟩ = .ok s' ∧ s'.stack = [v] ∧ s'.Plain := by
  have hloads : ∀ v ∈ s.stack.take 2, v.kind = .ldLocal := by
    simp [hstack, ht, hu]
  obtain ⟨v, s', hfold, hstack', -, -, hs'⟩ := hs.fold (by simp [hstack]) (Or.inr hloads)
    .binOp [.operator op]
  refine ⟨v, s', ?_, ?_, hs'⟩
  · simp only [step, hfold, ok_bind]
    rfl
  · rw [hstack', hstack]
    rfl

section

variable (hs : s.Plain) (hstack : s.stack = [t]) (i : Nat)
include hs hstack

theorem step_store (operands : List Literal) :
    ∃ s', s.step i false ⟨.stLocal, operands⟩ = .ok s' ∧ s'.stack = [] ∧ s'.Plain := by
  obtain ⟨u, s', hfold, hstack', -, -, hs'⟩ := hs.fold (by simp [hstack]) (Or.inl (Nat.le_refl 1))
    .stLocal (operands.map .literal)
  have hempty : ((s'.noteStore i).finish i).stack = [] := by
    rw [finish_noteStore_stack, Importer.finish, hstack', hstack]
    rfl
  refine ⟨(s'.noteStore i).finish i, ?_, hempty, (hs'.noteStore i).finish i⟩
  simp only [step, hfold, ok_bind, requireEmpty_eq_ok hempty]
  rfl

theorem step_pop : ∃ s', s.step i false ⟨.pop, []⟩ = .ok s' ∧ s'.stack = [] ∧ s'.Plain := by
  obtain ⟨u, s', hfold, hstack', -, -, hs'⟩ := hs.fold (by simp [hstack]) (Or.inl (Nat.le_refl 1))
    .discard []
  have hempty : (s'.finish i).stack = [] := by
    rw [Importer.finish, hstack', hstack]
    rfl
  refine ⟨s'.finish i, ?_, hempty, hs'.finish i⟩
  simp only [step, hfold, ok_bind, requireEmpty_eq_ok hempty]
  rfl

/-- The block ends with the return. -/
theorem step_ret :
    ∃ u s', s.step i true ⟨.ret, []⟩ = .ok s' ∧ s'.Plain ∧
      s'.graph.terminator 0 = .ok u ∧ u.operands = [] := by
  obtain ⟨u, s', hfold, hstack', -, hoperands, hs'⟩ :=
    hs.fold (by simp [hstack]) (Or.inl (Nat.le_refl 1)) .ret []
  refine ⟨u, s'.finish i, ?_, hs'.finish i, ?_, hoperands⟩
  · simp only [step, hfold, ok_bind]
    rfl
  · rw [Importer.finish, hstack']
    dsimp only
    rw [hs'.block_eq, Graph.terminator_append]

end

end Plain
end Importer

/-! ## Reading the lines -/

namespace ThreeAddress

open Importer

variable {count : Nat} {s : Importer}

theorem Atom.step_instr (a : Atom count) (hs : s.Plain) (i : Nat) :
    ∃ t s', s.step i false a.instr = .ok s' ∧ s'.stack = t :: s.stack ∧ s'.Plain := by
  cases a with
  | constant value => exact hs.step_push i [value]
  | slot k =>
      obtain ⟨t, s', hstep, hstack, -, hs'⟩ := hs.step_load i [.num k]
      exact ⟨t, s', hstep, hstack, hs'⟩

/-- A line is read from an empty stack to an empty stack. -/
theorem Line.exists_leads (line : Line count) (hs : s.Plain) (hempty : s.stack = []) (i : Nat) :
    ∃ s', Leads i line.code s s' ∧ s'.stack = [] ∧ s'.Plain := by
  cases line with
  | assign target source =>
      obtain ⟨t, s₁, hsource, hstack₁, hs₁⟩ := source.step_instr hs i
      rw [hempty] at hstack₁
      obtain ⟨s₂, hstore, hstack₂, hs₂⟩ := hs₁.step_store hstack₁ (i + 1) [.num target]
      exact ⟨s₂, .cons hsource (.cons hstore (.nil _ _)), hstack₂, hs₂⟩
  | operate target op left right =>
      obtain ⟨t, s₁, hleft, hstack₁, ht, hs₁⟩ := hs.step_load i [.num left]
      obtain ⟨u, s₂, hright, hstack₂, hu, hs₂⟩ := hs₁.step_load (i + 1) [.num right]
      rw [hstack₁, hempty] at hstack₂
      obtain ⟨v, s₃, hop, hstack₃, hs₃⟩ := hs₂.step_binary hstack₂ hu ht (i + 1 + 1) op
      obtain ⟨s₄, hstore, hstack₄, hs₄⟩ := hs₃.step_store hstack₃ (i + 1 + 1 + 1) [.num target]
      refine ⟨s₄, ?_, hstack₄, hs₄⟩
      exact .cons hleft (.cons hright (.cons hop (.cons hstore (.nil _ _))))
  | discard source =>
      obtain ⟨t, s₁, hsource, hstack₁, hs₁⟩ := source.step_instr hs i
      rw [hempty] at hstack₁
      obtain ⟨s₂, hpop, hstack₂, hs₂⟩ := hs₁.step_pop hstack₁ (i + 1)
      exact ⟨s₂, .cons hsource (.cons hpop (.nil _ _)), hstack₂, hs₂⟩

theorem exists_leads_lines (lines : List (Line count)) (hs : s.Plain) (hempty : s.stack = [])
    (i : Nat) : ∃ s', Leads i (lines.flatMap Line.code) s s' ∧ s'.stack = [] ∧ s'.Plain := by
  induction lines generalizing s i with
  | nil => exact ⟨s, .nil i s, hempty, hs⟩
  | cons line lines ih =>
      obtain ⟨s₁, hline, hstack₁, hs₁⟩ := line.exists_leads hs hempty i
      obtain ⟨s₂, hlines, hstack₂, hs₂⟩ := ih hs₁ hstack₁ (i + line.code.length)
      rw [List.flatMap_cons]
      exact ⟨s₂, hline.append hlines, hstack₂, hs₂⟩

variable {locals : Int}

/-- The whole program is read, up to the return with which its block ends. -/
theorem exists_run (lines : List (Line locals.toNat)) (result : Atom locals.toNat) :
    ∃ s t, Importer.run 0 (program locals lines result).instrs .fresh = .ok s ∧
      s.Plain ∧ s.graph.terminator 0 = .ok t ∧ t.operands = [] := by
  obtain ⟨s₁, hlines, hstack₁, hs₁⟩ := exists_leads_lines lines Plain.start rfl 0
  obtain ⟨u, s₂, hresult, hstack₂, hs₂⟩ :=
    result.step_instr hs₁ (0 + (lines.flatMap Line.code).length)
  rw [hstack₁] at hstack₂
  obtain ⟨t, s₃, hret, hs₃, hlast, hoperands⟩ :=
    hs₂.step_ret hstack₂ (0 + (lines.flatMap Line.code).length + 1)
  refine ⟨s₃, t, ?_, hs₃, hlast, hoperands⟩
  rw [program, hlines _ (by simp), run, List.isEmpty_cons, hresult, ok_bind, run, List.isEmpty_nil,
    hret, ok_bind, run]

/-- No edge leaves the block, so it is the predecessor of none. -/
theorem notePredecessors_of_ret {g : Graph} {t : Tree} (hlast : g.terminator 0 = .ok t)
    (hoperands : t.operands = []) : Ir.notePredecessors g [0] {} = .ok () {} := by
  have hnone : Notes.operands {} t = [] := by
    rw [Notes.operands, hoperands, Notes.Fresh.empty.stored_eq]
    rfl
  have hexits : Ir.notePredecessor g 0 {} = .ok () {} := by
    rw [Ir.notePredecessor]
    refine (bind_apply_of_ok rfl).trans ?_
    simp only [Ir.eachExit, hlast, hnone]
    rfl
  exact bind_apply_of_ok hexits

/-- Three-address code is read into a single block of flat trees. -/
theorem exists_import (lines : List (Line locals.toNat)) (result : Atom locals.toNat) :
    ∃ m t, (program locals lines result).import? = .ok m ∧ m.ir.blocks m.graph = [0] ∧
      m.graph.Flat ∧ m.graph.terminator 0 = .ok t ∧ t.operands = [] := by
  obtain ⟨s, t, hrun, hs, hlast, hoperands⟩ := exists_run lines result
  have hblocks : s.graph.blocksFrom 0 = [0] := by
    rw [Graph.blocksFrom, hs.blockCount_eq]
    rfl
  have hpred : (⟨0, locals, 0⟩ : Ir).recomputePredecessors s.graph {} = .ok () {} := by
    rw [Ir.recomputePredecessors, Ir.blocks, hblocks]
    exact notePredecessors_of_ret hlast hoperands
  obtain ⟨m, himport⟩ : ∃ m, (program locals lines result).import? = .ok m := by
    rw [Program.import?_eq, hrun, ok_bind]
    dsimp only [program]
    rw [hpred]
    exact ⟨_, rfl⟩
  obtain ⟨s', n, hrun', hwf, hgraph, hir, -⟩ := Program.import?_cases himport
  obtain rfl : s = s' := Except.ok.inj (hrun.symm.trans hrun')
  refine ⟨m, t, himport, ?_, ?_, ?_, hoperands⟩
  · rw [hir, hgraph]
    exact hblocks
  · intro u hu
    apply hs.flat
    rw [hgraph] at hu
    obtain ⟨b, -, hb⟩ := List.mem_flatMap.mp hu
    exact hwf.formed.mem_allTrees hb
  · rw [hgraph]
    exact hlast

/-! ## The instructions of a program -/

/-- What holds of the instructions that three-address code is made of holds all through it. -/
theorem forall_mem_instrs {P : Instr → Prop} (hatom : ∀ a : Atom locals.toNat, P a.instr)
    (hstore : ∀ k : Fin locals.toNat, P (store k)) (hbinary : ∀ op, P ⟨.binary op, []⟩)
    (hpop : P ⟨.pop, []⟩) (hret : P ⟨.ret, []⟩) (lines : List (Line locals.toNat))
    (result : Atom locals.toNat) :
    ∀ instr ∈ (program locals lines result).instrs, P instr := by
  have hline : ∀ line : Line locals.toNat, ∀ instr ∈ line.code, P instr := by
    intro line
    cases line with
    | assign target source => simp [Line.code, hatom, hstore]
    | operate target op left right =>
        have hload : ∀ k : Fin locals.toNat, P (load k) := fun k => hatom (.slot k)
        simp [Line.code, hload, hbinary, hstore]
    | discard source => simp [Line.code, hatom, hpop]
  intro instr hinstr
  rcases List.mem_append.mp hinstr with hinstr | hinstr
  · obtain ⟨line, -, hmem⟩ := List.mem_flatMap.mp hinstr
    exact hline line instr hmem
  · rcases List.mem_pair.mp hinstr with rfl | rfl
    · exact hatom result
    · exact hret

theorem program_inRange (lines : List (Line locals.toNat)) (result : Atom locals.toNat) :
    ∀ instr ∈ (program locals lines result).instrs, instr.inRange locals = true := by
  have hslot : ∀ k : Fin locals.toNat, (0 : Int) ≤ k ∧ (k : Int) < locals := by
    intro k
    have hlt := k.isLt
    omega
  apply forall_mem_instrs
  · intro a
    cases a with
    | constant value => rfl
    | slot k => simpa [Atom.instr, load, Instr.inRange] using hslot k
  · intro k
    simpa [store, Instr.inRange] using hslot k
  · intro op
    rfl
  · rfl
  · rfl

theorem program_jumpFree (lines : List (Line locals.toNat)) (result : Atom locals.toNat) :
    (program locals lines result).JumpFree := by
  apply forall_mem_instrs
  · intro a
    cases a <;> simp [Atom.instr, load]
  · simp [store]
  · simp
  · simp
  · simp

/-! ## The scan -/

/-- Three-address code is read and scanned to its end with any number of registers, be it one.
Every tree gets its turn, and after each of them the active intervals occupy the registers in
which they live, no two of them the same, and nothing else occupies a register. -/
theorem compile_program_consistent (locals : Int) (lines : List (Line locals.toNat))
    (result : Atom locals.toNat) {settings : Settings} (hsize : 1 ≤ settings.registers) :
    ∃ c, (program locals lines result).compile settings = .ok c ∧ c.fault = none ∧
      ((program locals lines result).steps settings).map Step.tree = c.ir.trees c.graph ∧
      ∀ x ∈ (program locals lines result).steps settings,
        x.after.Consistent settings.registers := by
  obtain ⟨m, t, himport, hblocks, hflat, hlast, hoperands⟩ := exists_import lines result
  have hnamed := Program.import?_namesVariables (program_inRange lines result) himport
  have honce := (program_jumpFree lines result).ids_nodup himport
  exact Program.compile_of_flat himport hblocks hflat hnamed honce hlast hoperands hsize

/-- With a single register, variables are overwritten and read again. -/
theorem compile_program_consistent_single :
    let lines : List (Line 3) := [
      .assign 0 (.constant (.num 7)), .assign 1 (.slot 0), .operate 2 .sub 1 0,
      .operate 0 .mul 2 2, .discard (.slot 1), .discard (.constant (.num 5))]
    let p := program 3 lines (.slot (0 : Fin 3))
    let settings : Settings := { registers := 1, reuse := true }
    1 ≤ settings.registers ∧
      ∃ c, p.compile settings = .ok c ∧ c.fault = none ∧
        (p.steps settings).map Step.tree = c.ir.trees c.graph ∧
        ∀ x ∈ p.steps settings, x.after.Consistent settings.registers :=
  ⟨by decide, compile_program_consistent 3 _ _ (by decide)⟩

end ThreeAddress
end LinearScan
