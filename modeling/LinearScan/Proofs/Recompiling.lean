import LinearScan.Proofs.Assignment
import LinearScan.Proofs.Verdicts
import Mathlib.Data.List.Forall2

/-!
# Compiling again

Compiling a program lengthens it: each store that was scanned gets the register it took its value
from as one more operand.  The longer program is compiled like the program itself, with any
settings, since nothing depends on the operands behind the variable of a store.  This holds
however often the program has been compiled before, and also when a scan stopped.  A scan that
returns leaves behind the operands of each store that it reached the register of its value.
-/

namespace LinearScan

/-! ## Longer programs -/

/-- The instruction `b` is `a`, with more operands if it is a store that names a variable. -/
structure Instr.Lengthened (a b : Instr) : Prop where
  opcode_eq : b.opcode = a.opcode
  kept : a.operands <+: b.operands
  operands_eq : a.opcode ≠ .stLocal ∨ a.operands = [] → b.operands = a.operands

/-- The program `q` is `p`, in which stores may have got more operands. -/
structure Program.Lengthened (p q : Program) : Prop where
  locals_eq : q.locals = p.locals
  instrs : List.Forall₂ Instr.Lengthened p.instrs q.instrs

/-- Behind the operands that a store of `p` had, the compiled program shows last the register of
the value that it stores, if its tree was reached. -/
def Compiled.ShowsRegisters (c : Compiled) (p : Program) : Prop :=
  ∃ m, p.import? = .ok m ∧ ∀ (i : Nat) (instr : Instr), p.instrs[i]? = some instr →
    instr.opcode = .stLocal → ∃ (t : Tree) (shown : List Int), (i, t) ∈ m.stores ∧
      c.program.instrs[i]? = some { instr with operands := instr.operands ++ shown.map .num } ∧
      (t ∈ c.ir.trees c.graph →
        ∃ v, t.subtrees = [v] ∧ shown.getLast? = some (c.alloc.notes.reg v))

namespace Instr.Lengthened

variable {a b c : Instr}

theorem refl (a : Instr) : a.Lengthened a :=
  ⟨rfl, List.prefix_refl _, fun _ => rfl⟩

theorem trans (h : a.Lengthened b) (h' : b.Lengthened c) : a.Lengthened c where
  opcode_eq := h'.opcode_eq.trans h.opcode_eq
  kept := h.kept.trans h'.kept
  operands_eq hold := by
    have hb := h.operands_eq hold
    rw [h'.operands_eq (by rwa [h.opcode_eq, hb]), hb]

theorem trim_eq (h : a.Lengthened b) : a.trim .stores = b.trim .stores := by
  obtain ⟨op, os⟩ := a
  obtain ⟨op', os'⟩ := b
  obtain rfl : op' = op := h.opcode_eq
  by_cases hstore : op' = .stLocal ∧ os ≠ []
  · obtain ⟨rfl, hne⟩ := hstore
    obtain ⟨extra, rfl⟩ : os <+: os' := h.kept
    cases os with
    | nil => exact absurd rfl hne
    | cons o os => simp [Instr.trim, Trim.operands]
  · rw [not_and_or, not_not] at hstore
    have hos : os' = os := h.operands_eq hstore
    rw [hos]

end Instr.Lengthened

namespace Program

open Alloc

variable {p q r : Program}

theorem Lengthened.refl (p : Program) : p.Lengthened p :=
  ⟨rfl, List.forall₂_same.mpr fun a _ => .refl a⟩

theorem Lengthened.trans (h : p.Lengthened q) (h' : q.Lengthened r) : p.Lengthened r := by
  have hinstrs : ∀ {as bs cs : List Instr}, List.Forall₂ Instr.Lengthened as bs →
      List.Forall₂ Instr.Lengthened bs cs → List.Forall₂ Instr.Lengthened as cs := by
    intro as bs cs hab
    induction hab generalizing cs with
    | nil => exact fun hbc => hbc
    | cons hab _ ih =>
        rintro (_ | ⟨hbc, hrest⟩)
        exact .cons (hab.trans hbc) (ih hrest)
  exact ⟨h'.locals_eq.trans h.locals_eq, hinstrs h.instrs h'.instrs⟩

theorem Lengthened.trim_eq (h : p.Lengthened q) : p.trim .stores = q.trim .stores := by
  have hinstrs := h.instrs.imp fun a b => Instr.Lengthened.trim_eq
  rw [← List.forall₂_map_right_iff (f := Instr.trim .stores),
    ← List.forall₂_map_left_iff (f := Instr.trim .stores), List.forall₂_eq_eq_eq] at hinstrs
  rw [trim, trim, hinstrs, h.locals_eq]

/-! ## What a scan leaves -/

theorem storeOperands_eq {t : Tree} {ls : List Literal} (ht : t.operands = ls.map .literal)
    (n : Notes) : storeOperands n t = ls ++ (n.tree t).stored.map .num := by
  simp [storeOperands, Notes.operands, ht, List.filterMap_append, List.filterMap_map]

/-- One instruction is changed. -/
theorem forall₂_modify {as bs : List Instr} (h : List.Forall₂ Instr.Lengthened as bs) {k : Nat}
    {f : Instr → Instr} (hf : ∀ a b, as[k]? = some a → a.Lengthened b → a.Lengthened (f b)) :
    List.Forall₂ Instr.Lengthened as (bs.modify k f) := by
  induction h generalizing k with
  | nil => cases k <;> exact .nil
  | cons hab hrest ih =>
      cases k with
      | zero => exact .cons (hf _ _ rfl hab) hrest
      | succ k => exact .cons hab (ih fun a b ha => hf a b ha)

/-- Bringing a program up to date lengthens its stores, except for those without operands at
which nothing is noted. -/
theorem refresh_lengthened {n : Notes} {stores : List (Nat × Tree)}
    (h : ∀ x ∈ stores, ∃ instr, p.instrs[x.1]? = some instr ∧ instr.opcode = .stLocal ∧
      x.2.operands = instr.operands.map .literal ∧
      (x.2.operands = [] → (n.tree x.2).stored = [])) : p.Lengthened (p.refresh n stores) := by
  refine ⟨rfl, ?_⟩
  have hfold : ∀ instrs, List.Forall₂ Instr.Lengthened p.instrs instrs →
      List.Forall₂ Instr.Lengthened p.instrs (stores.foldl (fun instrs store =>
        instrs.modify store.1 fun instr => { instr with operands := storeOperands n store.2 })
        instrs) := by
    induction stores with
    | nil => exact fun instrs hinstrs => hinstrs
    | cons x stores ih =>
        intro instrs hinstrs
        refine ih (fun y hy => h y (by simp [hy])) _ (forall₂_modify hinstrs ?_)
        intro a b ha hab
        obtain ⟨instr, hinstr, hstore, hoperands, hnone⟩ := h x (by simp)
        obtain rfl : instr = a := Option.some.inj (hinstr.symm.trans ha)
        rw [storeOperands_eq hoperands]
        refine ⟨hab.opcode_eq, List.prefix_append _ _, ?_⟩
        rintro (hother | hnil)
        · exact absurd hstore hother
        · rw [hnone (by simp [hoperands, hnil])]
          simp
  exact hfold p.instrs (Lengthened.refl p).instrs

/-- A scan notes nothing at stores without operands, whether it returns or stops. -/
theorem stored_eq_nil {m : Imported} (h : p.import? = .ok m) {size : Int} {reuse : Bool}
    {s : Allocator}
    (hs : scan m.graph m.ir (Allocator.create m.notes size reuse) = .ok () s ∨
      ∃ fault, scan m.graph m.ir (Allocator.create m.notes size reuse) = .error fault s)
    {x : Nat × Tree} (hx : m.graph.StoreOf p.instrs x) (hoperands : x.2.operands = []) :
    (s.notes.tree x.2).stored = [] := by
  obtain ⟨⟨pending, hg⟩, hfresh, -⟩ := import?_formed h
  let D : TreeId → Prop := fun id => ∃ u ∈ m.graph.allTrees pending, u.operands = [] ∧ u.id = id
  have hmem : D x.2.id :=
    ⟨x.2, Graph.mem_allTrees_of_root (List.mem_append_left _ hx.1), hoperands, rfl⟩
  have hstart : (Allocator.create m.notes size reuse).Untouched D := by
    rintro id ⟨u, -, -, rfl⟩
    exact hfresh.stored_eq u
  have hscan : Confined D (fun _ => True) (scan m.graph m.ir)
      (Allocator.create m.notes size reuse) := by
    refine confined_scan (fun _ _ _ => trivial) (fun _ _ _ => trivial) (fun _ _ _ => trivial)
      fun s₁ _ v hv => confined_of_mem_visitBlocks hg.twins_eq ?_ hv
    rintro b t ht ⟨u, hu, hnil, hid⟩
    rwa [← hg.planted.eq_of_id_eq hu (hg.mem_allTrees ht) hid]
  exact hscan.untouched hstart (hs.imp_left fun h => ⟨(), h⟩) x.2.id hmem

/-- What compiling a program does with it. -/
theorem compile_refreshes {settings : Settings} {c : Compiled} (h : p.compile settings = .ok c) :
    ∃ m, p.import? = .ok m ∧ c.program = p.refresh c.alloc.notes m.stores ∧
      (scan m.graph m.ir (Allocator.create m.notes settings.registers settings.reuse) =
          .ok () c.alloc ∨
        ∃ fault, scan m.graph m.ir
          (Allocator.create m.notes settings.registers settings.reuse) = .error fault c.alloc) := by
  obtain ⟨m, himport, hrest⟩ := exists_of_bind_eq_ok h
  refine ⟨m, himport, ?_⟩
  dsimp only at hrest
  cases hscan : scan m.graph m.ir
      (Allocator.create m.notes settings.registers settings.reuse) with
  | ok _ s =>
      simp only [hscan] at hrest
      injection hrest with hrest
      exact hrest ▸ ⟨rfl, Or.inl rfl⟩
  | error fault s =>
      simp only [hscan] at hrest
      injection hrest with hrest
      exact hrest ▸ ⟨rfl, Or.inr ⟨fault, rfl⟩⟩

/-- Compiling a program lengthens it. -/
theorem compile_lengthened {settings : Settings} {c : Compiled}
    (h : p.compile settings = .ok c) : p.Lengthened c.program := by
  obtain ⟨m, himport, hprogram, hscan⟩ := compile_refreshes h
  obtain ⟨r, hread, -, hgraph, hstores⟩ := import?_read himport
  rw [hprogram]
  refine refresh_lengthened fun x hx => ?_
  have hstore := hread.stores x (hstores ▸ hx)
  rw [← hgraph] at hstore
  obtain ⟨instr, hinstr, hopcode, hoperands⟩ := hstore.2.2
  exact ⟨instr, hinstr, hopcode, hoperands, stored_eq_nil himport hscan hstore⟩

/-- In an updated program a store has the operands that are noted for its tree. -/
theorem refresh_getElem? {n : Notes} {stores : List (Nat × Tree)} {x : Nat × Tree}
    (hnodup : (stores.map Prod.fst).Nodup) (hx : x ∈ stores) :
    (p.refresh n stores).instrs[x.1]? =
      (p.instrs[x.1]?).map fun instr => { instr with operands := storeOperands n x.2 } := by
  have hfold : ∀ {stores : List (Nat × Tree)} (instrs : List Instr), x.1 ∉ stores.map Prod.fst →
      (stores.foldl (fun instrs store => instrs.modify store.1 fun instr =>
        { instr with operands := storeOperands n store.2 }) instrs)[x.1]? = instrs[x.1]? := by
    intro stores instrs hnot
    induction stores generalizing instrs with
    | nil => rfl
    | cons y stores ih =>
        rw [List.map_cons, List.mem_cons, not_or] at hnot
        rw [List.foldl_cons, ih _ hnot.2, List.getElem?_modify_ne _ _ (Ne.symm hnot.1)]
  obtain ⟨before, after, rfl⟩ := List.append_of_mem hx
  rw [List.map_append, List.map_cons, List.nodup_middle, List.nodup_cons, List.mem_append,
    not_or] at hnodup
  rw [refresh, List.foldl_append, List.foldl_cons, hfold _ hnodup.1.2, List.getElem?_modify_eq,
    hfold _ hnodup.1.1]
  rfl

theorem compile_showsRegisters {settings : Settings} {c : Compiled}
    (h : p.compile settings = .ok c) (hfault : c.fault = none) : c.ShowsRegisters p := by
  obtain ⟨m, himport, hgraph, hir, hscan⟩ := compile_cases h hfault
  obtain ⟨m', himport', hprogram, -⟩ := compile_refreshes h
  obtain rfl : m = m' := Except.ok.inj (himport.symm.trans himport')
  obtain ⟨r, hread, -, -, hstores⟩ := import?_read himport
  have hoffsets : m.stores.map Prod.fst = storeOffsets 0 p.instrs := by
    obtain ⟨s, n, hrun, -⟩ := import?_cases himport
    rw [import?_stores himport hrun]
    exact Importer.run_stores hrun
  refine ⟨m, himport, fun i instr hinstr hop => ?_⟩
  have hmem : i ∈ storeOffsets 0 p.instrs := by
    refine List.mem_map.mpr ⟨(instr, i), List.mem_filter.mpr ⟨?_, decide_eq_true hop⟩, rfl⟩
    exact List.mk_mem_zipIdx_iff_getElem?.mpr hinstr
  obtain ⟨⟨j, t⟩, hx, rfl⟩ : ∃ x ∈ m.stores, x.1 = i := List.mem_map.mp (hoffsets ▸ hmem)
  obtain ⟨-, hkind, instr', hinstr', -, hoperands⟩ := hread.stores (j, t) (hstores ▸ hx)
  obtain rfl : instr = instr' := Option.some.inj (hinstr.symm.trans hinstr')
  refine ⟨t, (c.alloc.notes.tree t).stored, hx, ?_, ?_⟩
  · rw [hprogram, refresh_getElem? (hoffsets ▸ nodup_storeOffsets 0 p.instrs) hx, hinstr,
      storeOperands_eq hoperands]
    rfl
  · intro ht
    rw [hir, hgraph] at ht
    exact (scan_assigned himport hscan ht).stored hkind

/-! ## Rounds -/

/-- The program as compiling it leaves it. -/
def recompiled (p : Program) (settings : Settings) : Program :=
  match p.compile settings with
  | .ok c => c.program
  | .error _ => p

theorem recompiled_lengthened (p : Program) (settings : Settings) :
    p.Lengthened (p.recompiled settings) := by
  rw [recompiled]
  split
  · next c h => exact compile_lengthened h
  · exact .refl p

theorem foldl_recompiled_lengthened (p : Program) (rounds : List Settings) :
    p.Lengthened (rounds.foldl recompiled p) := by
  induction rounds generalizing p with
  | nil => exact .refl p
  | cons settings rounds ih => exact (p.recompiled_lengthened settings).trans (ih _)

/-- Compiling again changes nothing: after any rounds of compiling, whether their scans returned
or stopped, a program is compiled with the same outcome as at first.  It is refused for the same
reason, or its scan returns or stops for the same reason, shows the same lines, and gives trees,
blocks and edges in the same places the same registers, spills, restores, moves, entry sets and
exit sets.  The rounds have only put operands behind those of stores, and a round whose scan
returns puts the register of its value behind those of each store that it reaches. -/
theorem compile_sameOutcome_of_recompiled (p : Program) (rounds : List Settings)
    (settings : Settings) :
    p.Lengthened (rounds.foldl recompiled p) ∧
      ((∃ fault, p.compile settings = .error fault ∧
          (rounds.foldl recompiled p).compile settings = .error fault) ∨
        ∃ c d, p.compile settings = .ok c ∧
          (rounds.foldl recompiled p).compile settings = .ok d ∧ c.SameOutcome d) ∧
      ∀ d, (rounds.foldl recompiled p).compile settings = .ok d → d.fault = none →
        d.ShowsRegisters (rounds.foldl recompiled p) := by
  have hlong := p.foldl_recompiled_lengthened rounds
  exact ⟨hlong, sameOutcome_of_trim_eq hlong.trim_eq (p.mirrored_stores settings)
    (mirrored_stores _ settings), fun d => compile_showsRegisters⟩

-- Two rounds with different settings leave a register each behind the variable of the store.
example :
    ([{ registers := 1 }, { registers := 3, reuse := false }].foldl recompiled
      ⟨1, [Samples.instr .push [7], Samples.instr .stLocal [0], Samples.instr .ldLocal [0],
        Samples.instr .ret]⟩).instrs =
      [Samples.instr .push [7], Samples.instr .stLocal [0, 0, 0], Samples.instr .ldLocal [0],
        Samples.instr .ret] := by
  decide +kernel

end Program
end LinearScan
