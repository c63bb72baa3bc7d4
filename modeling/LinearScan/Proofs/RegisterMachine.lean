import LinearScan.Notes
import LinearScan.Proofs.StraightLine

/-!
# What annotated trees compute

The trees of a block, with the registers, spills and restores that are noted at them, are
run by a machine that has registers and a place in memory for every interval.  At each
tree the spills are carried out first, then the restores, then the tree itself; reads
and stores of variables do nothing, since the value is expected in its register.

Two conditions on the notes are stated without values.  `InPlace` follows which values
the registers hold and asks that every value is where it is looked for.  `Backed` follows
which intervals have their value in memory and asks this of every interval that is
restored.  Together they make the machine return what the statements return.
-/

namespace LinearScan

/-- A machine with registers and memory. -/
structure RegisterMachine (V : Type) where
  registers : Int → V
  /-- The memory, with a place for each interval. -/
  memory : IntervalId → V

namespace RegisterMachine

variable {V : Type}

/-- Write an interval from its register to memory. -/
def spill (m : RegisterMachine V) (sp : Spill) : RegisterMachine V :=
  match sp.reg with
  | some reg => { m with memory := Function.update m.memory sp.interval (m.registers reg) }
  | none => m

/-- Read an interval from memory into a register. -/
def restore (m : RegisterMachine V) (r : Restore) : RegisterMachine V :=
  match r.reg with
  | some reg => { m with registers := Function.update m.registers reg (m.memory r.interval) }
  | none => m

/-- Carry out the spills and then the restores that are noted at a tree. -/
def prepare (n : Notes) (t : Tree) (m : RegisterMachine V) : RegisterMachine V :=
  (n.tree t).restores.foldl restore ((n.tree t).spills.foldl spill m)

/-- Execute a tree that does not return. -/
def exec (M : Meaning V) (n : Notes) (t : Tree) (m : RegisterMachine V) : RegisterMachine V :=
  match t.kind, t.operands, t.subtrees with
  | .const, _, _ =>
      { m with registers := Function.update m.registers (n.reg t) (M.constant t.literal?) }
  | .binOp, .operator op :: _, [a, b] =>
      { m with
        registers := Function.update m.registers (n.reg t)
          (M.apply op (m.registers (n.reg a)) (m.registers (n.reg b))) }
  | _, _, _ => m

/-- The value that trees return when they are run in order. -/
def run (M : Meaning V) (n : Notes) : List Tree → RegisterMachine V → Option V
  | [], _ => none
  | t :: rest, m =>
      match t.kind, t.subtrees with
      | .ret, u :: _ => some ((m.prepare n t).registers (n.reg u))
      | _, _ => run M n rest ((m.prepare n t).exec M n t)

theorem run_of_kind_ne
    {M : Meaning V} {n : Notes} {t : Tree} {rest : List Tree} {m : RegisterMachine V}
    (h : t.kind ≠ .ret) :
    run M n (t :: rest) m = run M n rest ((m.prepare n t).exec M n t) := by
  rw [run]
  split
  · exact absurd ‹_› h
  · rfl

end RegisterMachine

/-! ## What is in the registers -/

/-- A value by where it comes from. -/
inductive Content where
  /-- The value that a variable has now. -/
  | slot (x : Option Literal)
  /-- The result of a tree. -/
  | result (t : TreeId)
deriving DecidableEq

/-- The value that an interval is about. -/
def Owner.content : Owner → Content
  | .slot k => .slot (some (.num k))
  | .temp t => .result t.id

/-- The value that the interval `i` is about. -/
def Notes.content (n : Notes) (i : IntervalId) : Content :=
  (n.interval i).owner.content

/-- What each register is known to hold. -/
abbrev Contents := Int → List Content

namespace Contents

/-- The register is known to hold the value `c`. -/
def Holds (H : Contents) (reg : Option Int) (c : Content) : Prop :=
  ∃ r, reg = some r ∧ c ∈ H r

/-- What the registers hold after a restore. -/
def restore (n : Notes) (H : Contents) (r : Restore) : Contents :=
  match r.reg with
  | some reg => Function.update H reg [n.content r.interval]
  | none => H

/-- What the registers hold after the restores that are noted at a tree. -/
def prepare (n : Notes) (t : Tree) (H : Contents) : Contents :=
  (n.tree t).restores.foldl (restore n) H

/-- The registers that a tree reads, with what it expects there. -/
def needs (n : Notes) (t : Tree) : List (Int × Content) :=
  match t.kind with
  | .ldLocal => [(n.reg t, .slot t.literal?)]
  | .binOp | .stLocal | .ret => t.subtrees.map fun u => (n.reg u, .result u.id)
  | _ => []

/-- What the registers hold after a tree. -/
def exec (n : Notes) (t : Tree) (H : Contents) : Contents :=
  match t.kind, t.subtrees with
  | .ldLocal, _ => Function.update H (n.reg t) (.result t.id :: H (n.reg t))
  | .const, _ | .binOp, _ => Function.update H (n.reg t) [.result t.id]
  | .stLocal, u :: _ => fun r =>
      let kept := (H r).filter (· ≠ .slot t.literal?)
      if r = n.reg u then .slot t.literal? :: kept else kept
  | _, _ => H

end Contents

/-- Every value is in the register from which it is spilled, read as a variable or taken
as an operand. -/
def InPlace (n : Notes) : Contents → List Tree → Prop
  | _, [] => True
  | H, t :: rest =>
      (∀ sp ∈ (n.tree t).spills, H.Holds sp.reg (n.content sp.interval)) ∧
        (∀ need ∈ Contents.needs n t, need.2 ∈ H.prepare n t need.1) ∧
        InPlace n ((H.prepare n t).exec n t) rest

/-! ## What is in memory -/

/-- The value of `i` is in memory once the spills at `t` are carried out. -/
def Saved (n : Notes) (t : Tree) (clean : IntervalId → Prop) (i : IntervalId) : Prop :=
  clean i ∨ ∃ sp ∈ (n.tree t).spills, sp.interval = i

/-- Whether `t` gives the variable of the interval `i` another value. -/
def Overwrites (n : Notes) (t : Tree) (i : IntervalId) : Prop :=
  t.kind = .stLocal ∧ n.content i = .slot t.literal?

/-- Every interval that is restored has its value in memory. -/
def Backed (n : Notes) : (IntervalId → Prop) → List Tree → Prop
  | _, [] => True
  | clean, t :: rest =>
      (∀ r ∈ (n.tree t).restores, Saved n t clean r.interval) ∧
        Backed n (fun i => Saved n t clean i ∧ ¬ Overwrites n t i) rest

/-! ## Values behind the contents -/

theorem Tree.evals_eq_singleton
    {V : Type} {M : Meaning V} {locals : Locals V} {ts : List Tree} {v : V} :
    Tree.evals M locals ts = some [v] ↔ ∃ t, ts = [t] ∧ Tree.eval M locals t = some v := by
  constructor
  · intro h
    cases ts with
    | nil =>
        rw [Tree.evals] at h
        cases h
    | cons t ts =>
        obtain ⟨w, ws, hw, hws, heq⟩ := Tree.evals_cons_eq_some.mp h
        obtain ⟨rfl, rfl⟩ := List.cons.inj heq
        cases ts with
        | nil => exact ⟨t, rfl, hw⟩
        | cons u ts =>
            obtain ⟨_, _, -, -, heq⟩ := Tree.evals_cons_eq_some.mp hws
            cases heq
  · rintro ⟨t, rfl, ht⟩
    exact Tree.evals_singleton ht

/-- A tree that has a value is a load, a constant or an operation on two values. -/
theorem Tree.eval_cases
    {V : Type} {M : Meaning V} {locals : Locals V} {t : Tree} {v : V}
    (h : Tree.eval M locals t = some v) :
    (t.kind = .ldLocal ∧ t.subtrees = [] ∧ v = locals t.literal?) ∨
      (t.kind = .const ∧ t.subtrees = [] ∧ v = M.constant t.literal?) ∨
      ∃ op rest a b va vb, t.kind = .binOp ∧ t.operands = .operator op :: rest ∧
        t.subtrees = [a, b] ∧ Tree.eval M locals a = some va ∧ Tree.eval M locals b = some vb ∧
        v = M.apply op va vb := by
  obtain ⟨id, kind, operands, block, ts⟩ := t
  rw [Tree.eval] at h
  obtain ⟨vs, hvs, hcombine⟩ := Option.bind_eq_some_iff.mp h
  cases ts with
  | nil =>
      obtain rfl : [] = vs := Option.some.inj (by rw [← hvs, Tree.evals])
      cases kind with
      | ldLocal => exact Or.inl ⟨rfl, rfl, (Option.some.inj hcombine).symm⟩
      | const => exact Or.inr (Or.inl ⟨rfl, rfl, (Option.some.inj hcombine).symm⟩)
      | _ => cases hcombine
  | cons a ts =>
      obtain ⟨va, ws, ha, hws, rfl⟩ := Tree.evals_cons_eq_some.mp hvs
      -- Only lists of two values can be combined.
      obtain ⟨vb, rfl⟩ : ∃ vb, ws = [vb] := by
        rcases ws with _ | ⟨vb, _ | ⟨vc, ws⟩⟩
        · cases hcombine
        · exact ⟨vb, rfl⟩
        · cases hcombine
      obtain ⟨b, hts, hb⟩ := Tree.evals_eq_singleton.mp hws
      subst hts
      rw [Meaning.combine] at hcombine
      cases kind with
      | binOp =>
          cases operands with
          | nil => cases hcombine
          | cons operand rest =>
              cases operand with
              | operator op =>
                  exact Or.inr (Or.inr ⟨op, rest, a, b, va, vb, rfl, rfl, rfl, ha, hb,
                    (Option.some.inj hcombine).symm⟩)
              | _ => cases hcombine
      | _ => cases hcombine

/-- A tree that has a value does not return. -/
theorem Tree.kind_ne_ret
    {V : Type} {M : Meaning V} {locals : Locals V} {t : Tree} {v : V}
    (h : Tree.eval M locals t = some v) :
    t.kind ≠ .ret := by
  rcases Tree.eval_cases h with ⟨hkind, -⟩ | ⟨hkind, -⟩ | ⟨_, _, _, _, _, _, hkind, -⟩
  all_goals
    rw [hkind]
    exact fun hret => nomatch hret

section Values

variable {V : Type} {M : Meaning V} {n : Notes} {H : Contents} {clean : IntervalId → Prop}
  {locals : Locals V} {val : TreeId → V} {m : RegisterMachine V} {t : Tree}

/-- A value by where it comes from, when the variables hold `locals` and the trees have
the results `val`. -/
def Content.value (locals : Locals V) (val : TreeId → V) : Content → V
  | .slot x => locals x
  | .result t => val t

/-- The registers hold what they are known to hold, and so does the memory. -/
structure Agrees
    (n : Notes) (H : Contents) (clean : IntervalId → Prop) (locals : Locals V)
    (val : TreeId → V) (m : RegisterMachine V) : Prop where
  registers_eq : ∀ r, ∀ c ∈ H r, m.registers r = c.value locals val
  memory_eq : ∀ i, clean i → m.memory i = (n.content i).value locals val

namespace Agrees

section

variable (h : Agrees n H clean locals val m)
include h

/-- A register gets a new value. -/
theorem write (reg : Int) {v : V} {cs : List Content} (hcs : ∀ c ∈ cs, v = c.value locals val) :
    Agrees n (Function.update H reg cs) clean locals val
      { m with registers := Function.update m.registers reg v } where
  registers_eq r c hc := by
    by_cases hr : r = reg
    · subst hr
      simp only [Function.update_self] at hc ⊢
      exact hcs c hc
    · simp only [Function.update_of_ne hr] at hc ⊢
      exact h.registers_eq r c hc
  memory_eq := h.memory_eq

theorem spills {sps : List Spill} (hsps : ∀ sp ∈ sps, H.Holds sp.reg (n.content sp.interval)) :
    Agrees n H (fun i => clean i ∨ ∃ sp ∈ sps, sp.interval = i) locals val
      (sps.foldl RegisterMachine.spill m) := by
  induction sps generalizing m clean with
  | nil => simpa using h
  | cons sp sps ih =>
      obtain ⟨reg, hreg, hcontent⟩ := hsps sp (by simp)
      have hfirst : Agrees n H (fun i => clean i ∨ sp.interval = i) locals val (m.spill sp) := by
        refine ⟨?_, ?_⟩
        · rw [RegisterMachine.spill, hreg]
          exact h.registers_eq
        · intro i hi
          rw [RegisterMachine.spill, hreg]
          by_cases hsp : i = sp.interval
          · subst hsp
            simp only [Function.update_self]
            exact h.registers_eq reg _ hcontent
          · simp only [Function.update_of_ne hsp]
            exact h.memory_eq i (hi.resolve_right (Ne.symm hsp))
      have hrest := ih hfirst fun q hq => hsps q (by simp [hq])
      refine ⟨hrest.registers_eq, ?_⟩
      rintro i (hi | ⟨q, hq, hqi⟩)
      · exact hrest.memory_eq i (Or.inl (Or.inl hi))
      · rcases List.mem_cons.mp hq with rfl | hq
        · exact hrest.memory_eq i (Or.inl (Or.inr hqi))
        · exact hrest.memory_eq i (Or.inr ⟨q, hq, hqi⟩)

theorem restores {rs : List Restore} (hrs : ∀ r ∈ rs, clean r.interval) :
    Agrees n (rs.foldl (Contents.restore n) H) clean locals val
      (rs.foldl RegisterMachine.restore m) := by
  induction rs generalizing m H with
  | nil => exact h
  | cons r rs ih =>
      refine ih ?_ fun q hq => hrs q (by simp [hq])
      rw [Contents.restore, RegisterMachine.restore]
      cases r.reg with
      | none => exact h
      | some reg =>
          refine h.write _ ?_
          intro c hc
          obtain rfl := List.mem_singleton.mp hc
          exact h.memory_eq r.interval (hrs r (by simp))

/-- Spills and restores at a tree. -/
theorem prepare (hspills : ∀ sp ∈ (n.tree t).spills, H.Holds sp.reg (n.content sp.interval))
    (hrestores : ∀ r ∈ (n.tree t).restores, Saved n t clean r.interval) :
    Agrees n (H.prepare n t) (Saved n t clean) locals val (m.prepare n t) :=
  (h.spills hspills).restores hrestores

/-- A tree that produces a value. -/
theorem exec_value (hneeds : ∀ need ∈ Contents.needs n t, need.2 ∈ H need.1)
    (hself : Tree.eval M locals t = some (val t.id))
    (hsubtrees : ∀ u ∈ t.subtrees, Tree.eval M locals u = some (val u.id)) :
    Agrees n (H.exec n t) clean locals val (m.exec M n t) := by
  rcases Tree.eval_cases hself with ⟨hkind, -, hv⟩ | ⟨hkind, -, hv⟩ |
    ⟨op, rest, a, b, va, vb, hkind, hop, hts, ha, hb, hv⟩
  · -- The value of the variable is in the register already.
    have hslot : Content.slot t.literal? ∈ H (n.reg t) :=
      hneeds (n.reg t, .slot t.literal?) (by rw [Contents.needs, hkind]; simp)
    have hreg := h.registers_eq (n.reg t) _ hslot
    have hvalue : ∀ c ∈ .result t.id :: H (n.reg t),
        m.registers (n.reg t) = c.value locals val := by
      intro c hc
      rcases List.mem_cons.mp hc with rfl | hc
      · exact hreg.trans hv.symm
      · exact h.registers_eq (n.reg t) c hc
    have hwrite := h.write (n.reg t) hvalue
    rw [Function.update_eq_self] at hwrite
    rw [Contents.exec, RegisterMachine.exec, hkind]
    exact hwrite
  · rw [Contents.exec, RegisterMachine.exec, hkind]
    refine h.write _ ?_
    intro c hc
    obtain rfl := List.mem_singleton.mp hc
    exact hv.symm
  · have hoperand : ∀ u ∈ t.subtrees, m.registers (n.reg u) = val u.id := by
      intro u hu
      refine h.registers_eq (n.reg u) (.result u.id) ?_
      refine hneeds (n.reg u, .result u.id) ?_
      rw [Contents.needs, hkind]
      exact List.mem_map_of_mem hu
    have hva : va = val a.id := Option.some.inj (ha.symm.trans (hsubtrees a (by simp [hts])))
    have hvb : vb = val b.id := Option.some.inj (hb.symm.trans (hsubtrees b (by simp [hts])))
    rw [Contents.exec, RegisterMachine.exec, hkind, hop, hts]
    refine h.write _ ?_
    intro c hc
    obtain rfl := List.mem_singleton.mp hc
    rw [hoperand a (by simp [hts]), hoperand b (by simp [hts]), ← hva, ← hvb]
    exact hv.symm

end

end Agrees
end Values

/-! ## A run -/

theorem Content.value_update
    {V : Type} {locals : Locals V} {val : TreeId → V} {x : Option Literal} {c : Content}
    (hc : c ≠ .slot x) (v : V) :
    c.value (Function.update locals x v) val = c.value locals val := by
  cases c with
  | slot y =>
      rw [value, value, Function.update_of_ne]
      rintro rfl
      exact hc rfl
  | result t => rfl

/-- The machine is in a state from which both conditions hold of the trees `ts`. -/
def Ready
    {V : Type} (n : Notes) (locals : Locals V) (val : TreeId → V) (ts : List Tree)
    (m : RegisterMachine V) : Prop :=
  ∃ H clean, Agrees n H clean locals val m ∧ InPlace n H ts ∧ Backed n clean ts

namespace Ready

variable {V : Type} {M : Meaning V} {n : Notes} {locals : Locals V} {val : TreeId → V}
  {m : RegisterMachine V} {t u : Tree} {rest : List Tree}

section

variable (h : Ready n locals val (t :: rest) m)
include h

/-- A tree that produces a value. -/
theorem exec_value (hself : Tree.eval M locals t = some (val t.id))
    (hsubtrees : ∀ u ∈ t.subtrees, Tree.eval M locals u = some (val u.id)) :
    Ready n locals val rest ((m.prepare n t).exec M n t) := by
  obtain ⟨H, clean, hagrees, ⟨hspills, hneeds, hinPlace⟩, hrestores, hbacked⟩ := h
  have hexec := (hagrees.prepare hspills hrestores).exec_value hneeds hself hsubtrees
  refine ⟨_, _, ⟨hexec.registers_eq, ?_⟩, hinPlace, hbacked⟩
  intro i hi
  exact hexec.memory_eq i hi.1

/-- A tree that drops a value. -/
theorem exec_discard (hkind : t.kind = .discard) :
    Ready n locals val rest ((m.prepare n t).exec M n t) := by
  obtain ⟨H, clean, hagrees, ⟨hspills, hneeds, hinPlace⟩, hrestores, hbacked⟩ := h
  have hprepare := hagrees.prepare hspills hrestores
  rw [Contents.exec, hkind] at hinPlace
  rw [RegisterMachine.exec, hkind]
  refine ⟨_, _, ⟨hprepare.registers_eq, ?_⟩, hinPlace, hbacked⟩
  intro i hi
  exact hprepare.memory_eq i hi.1

/-- A store gives the variable a new value, which the register of the stored tree holds. -/
theorem exec_stLocal (hkind : t.kind = .stLocal) (hsubtrees : t.subtrees = [u]) :
    Ready n (Function.update locals t.literal? (val u.id)) val rest
      ((m.prepare n t).exec M n t) := by
  obtain ⟨H, clean, hagrees, ⟨hspills, hneeds, hinPlace⟩, hrestores, hbacked⟩ := h
  have hprepare := hagrees.prepare hspills hrestores
  have hu : Content.result u.id ∈ H.prepare n t (n.reg u) := by
    refine hneeds (n.reg u, .result u.id) ?_
    simp [Contents.needs, hkind, hsubtrees]
  simp only [Contents.exec, hkind, hsubtrees] at hinPlace
  rw [RegisterMachine.exec, hkind]
  refine ⟨_, _, ⟨?_, ?_⟩, hinPlace, hbacked⟩
  · intro r c hc
    have hkept : c ∈ (H.prepare n t r).filter (· ≠ .slot t.literal?) →
        (m.prepare n t).registers r =
          c.value (Function.update locals t.literal? (val u.id)) val := by
      intro hc
      obtain ⟨hmem, hne⟩ := List.mem_filter.mp hc
      rw [Content.value_update (of_decide_eq_true hne)]
      exact hprepare.registers_eq r c hmem
    by_cases hr : r = n.reg u
    · rw [if_pos hr] at hc
      rcases List.mem_cons.mp hc with rfl | hc
      · rw [hr, Content.value, Function.update_self]
        exact hprepare.registers_eq (n.reg u) _ hu
      · exact hkept hc
    · rw [if_neg hr] at hc
      exact hkept hc
  · intro i hi
    have hne : n.content i ≠ .slot t.literal? := fun hslot => hi.2 ⟨hkind, hslot⟩
    rw [Content.value_update hne]
    exact hprepare.memory_eq i hi.1

/-- A return finds its value in the register of its subtree. -/
theorem registers_eq (hkind : t.kind = .ret) (hu : u ∈ t.subtrees) :
    (m.prepare n t).registers (n.reg u) = val u.id := by
  obtain ⟨H, clean, hagrees, ⟨hspills, hneeds, -⟩, hrestores, -⟩ := h
  refine (hagrees.prepare hspills hrestores).registers_eq (n.reg u) (.result u.id) ?_
  refine hneeds (n.reg u, .result u.id) ?_
  rw [Contents.needs, hkind]
  exact List.mem_map_of_mem hu

end

/-- A run of trees that produce values. -/
theorem run_values
    {ts : List Tree} (h : Ready n locals val (ts ++ rest) m)
    (hself : ∀ t ∈ ts, Tree.eval M locals t = some (val t.id))
    (hsubtrees : ∀ t ∈ ts, ∀ u ∈ t.subtrees, Tree.eval M locals u = some (val u.id)) :
    ∃ m', Ready n locals val rest m' ∧
      RegisterMachine.run M n (ts ++ rest) m = RegisterMachine.run M n rest m' := by
  induction ts generalizing m with
  | nil => exact ⟨m, h, rfl⟩
  | cons t ts ih =>
      have hvalue := hself t (by simp)
      have hready := h.exec_value hvalue (hsubtrees t (by simp))
      obtain ⟨m', hm', hrun⟩ := ih hready (fun u hu => hself u (by simp [hu]))
        fun u hu => hsubtrees u (by simp [hu])
      refine ⟨m', hm', ?_⟩
      rw [List.cons_append, RegisterMachine.run_of_kind_ne (Tree.kind_ne_ret hvalue)]
      exact hrun

end Ready

/-! ## The values of the statements -/

/-- When the statements are executed with `locals` in the variables, every tree has the
result that `val` gives for it, and the value `v` is returned. -/
inductive Valued {V : Type} (M : Meaning V) (val : TreeId → V) : Locals V → List Tree → V → Prop
    where
  | ret {locals : Locals V} {t u : Tree} {rest : List Tree} (hkind : t.kind = .ret)
      (hsubtrees : t.subtrees = [u])
      (hval : ∀ y ∈ u.postorder, Tree.eval M locals y = some (val y.id)) :
      Valued M val locals (t :: rest) (val u.id)
  | stLocal {locals : Locals V} {t u : Tree} {rest : List Tree} {w : V} (hkind : t.kind = .stLocal)
      (hsubtrees : t.subtrees = [u])
      (hval : ∀ y ∈ u.postorder, Tree.eval M locals y = some (val y.id))
      (hrest : Valued M val (Function.update locals t.literal? (val u.id)) rest w) :
      Valued M val locals (t :: rest) w
  | discard {locals : Locals V} {t u : Tree} {rest : List Tree} {w : V} (hkind : t.kind = .discard)
      (hsubtrees : t.subtrees = [u])
      (hval : ∀ y ∈ u.postorder, Tree.eval M locals y = some (val y.id))
      (hrest : Valued M val locals rest w) :
      Valued M val locals (t :: rest) w

/-- Before a statement its subtree is run. -/
theorem Ready.run_subtree
    {V : Type} {M : Meaning V} {n : Notes} {locals : Locals V} {val : TreeId → V}
    {m : RegisterMachine V} {t u : Tree} {rest : List Tree}
    (h : Ready n locals val (t.postorder ++ rest) m) (hsubtrees : t.subtrees = [u])
    (hval : ∀ y ∈ u.postorder, Tree.eval M locals y = some (val y.id)) :
    ∃ m', Ready n locals val (t :: rest) m' ∧
      RegisterMachine.run M n (t.postorder ++ rest) m = RegisterMachine.run M n (t :: rest) m' := by
  have hpost : t.postorder ++ rest = u.postorder ++ t :: rest := by
    rw [Tree.postorder_eq t, hsubtrees]
    simp
  rw [hpost] at h ⊢
  refine h.run_values hval ?_
  intro y hy z hz
  exact hval z (Tree.mem_postorder_trans hy (Tree.mem_postorder_of_mem_subtrees hz))

/-- The machine returns what the statements return. -/
theorem Valued.run_eq
    {V : Type} {M : Meaning V} {n : Notes} {locals : Locals V} {val : TreeId → V}
    {ts : List Tree} {v : V} (h : Valued M val locals ts v) {m : RegisterMachine V}
    (hready : Ready n locals val (ts.flatMap Tree.postorder) m) :
    RegisterMachine.run M n (ts.flatMap Tree.postorder) m = some v := by
  induction h generalizing m with
  | ret hkind hsubtrees hval =>
      rw [List.flatMap_cons] at hready ⊢
      obtain ⟨m', hm', hrun⟩ := hready.run_subtree hsubtrees hval
      rw [hrun, RegisterMachine.run, hkind, hsubtrees]
      exact congrArg some (hm'.registers_eq hkind (by simp [hsubtrees]))
  | stLocal hkind hsubtrees hval _ ih =>
      rw [List.flatMap_cons] at hready ⊢
      obtain ⟨m', hm', hrun⟩ := hready.run_subtree hsubtrees hval
      rw [hrun, RegisterMachine.run_of_kind_ne (by rw [hkind]; exact fun h => nomatch h)]
      exact ih (hm'.exec_stLocal hkind hsubtrees)
  | discard hkind hsubtrees hval _ ih =>
      rw [List.flatMap_cons] at hready ⊢
      obtain ⟨m', hm', hrun⟩ := hready.run_subtree hsubtrees hval
      rw [hrun, RegisterMachine.run_of_kind_ne (by rw [hkind]; exact fun h => nomatch h)]
      exact ih (hm'.exec_discard hkind)

theorem Tree.eval_of_mem_postorder
    {V : Type} {M : Meaning V} {locals : Locals V} {u : Tree} {v : V}
    (h : Tree.eval M locals u = some v) :
    ∀ y ∈ u.postorder, ∃ w, Tree.eval M locals y = some w := by
  induction u using Tree.inductionOn generalizing v with
  | node i k o b ts ih =>
      intro y hy
      rw [Tree.postorder_eq, List.mem_append, List.mem_singleton] at hy
      rcases hy with hy | rfl
      · obtain ⟨a, ha, hya⟩ := List.mem_flatMap.mp hy
        have hvalue : ∃ w, Tree.eval M locals a = some w := by
          rcases Tree.eval_cases h with ⟨-, hts, -⟩ | ⟨-, hts, -⟩ |
            ⟨_, _, _, _, va, vb, -, -, hts, hva, hvb, -⟩
          · rw [hts] at ha
            cases ha
          · rw [hts] at ha
            cases ha
          · rw [hts, List.mem_cons, List.mem_singleton] at ha
            rcases ha with rfl | rfl
            · exact ⟨va, hva⟩
            · exact ⟨vb, hvb⟩
        obtain ⟨w, hw⟩ := hvalue
        exact ih a ha hw y hya
      · exact ⟨v, h⟩

section Results

variable {V : Type} {M : Meaning V} {locals : Locals V} {val : TreeId → V} {u : Tree}

/-- The results of the trees in `u`, and those that `val` gives for all other trees. -/
def Tree.results (M : Meaning V) (locals : Locals V) (u : Tree) (val : TreeId → V) (i : TreeId) :
    V :=
  ((u.postorder.find? fun y => y.id == i).bind (Tree.eval M locals)).getD (val i)

/-- These are the results. -/
theorem Tree.eval_eq_results
    (hnodup : (u.postorder.map Tree.id).Nodup) {v : V} (hv : Tree.eval M locals u = some v)
    (val : TreeId → V) :
    ∀ y ∈ u.postorder, Tree.eval M locals y = some (u.results M locals val y.id) := by
  intro y hy
  obtain ⟨w, hw⟩ := Tree.eval_of_mem_postorder hv y hy
  have hfind : (u.postorder.find? fun z => z.id == y.id) = some y := by
    cases hz : u.postorder.find? fun z => z.id == y.id with
    | none =>
        have hne := List.find?_eq_none.mp hz y hy
        simp at hne
    | some z =>
        have hid := List.find?_some hz
        rw [List.inj_on_of_nodup_map hnodup (List.mem_of_find?_eq_some hz) hy (eq_of_beq hid)]
  rw [results, hfind, Option.bind_some, hw, Option.getD_some]

theorem Tree.results_of_not_mem {i : TreeId} (hi : i ∉ u.postorder.map Tree.id) :
    u.results M locals val i = val i := by
  have hfind : (u.postorder.find? fun z => z.id == i) = none := by
    rw [List.find?_eq_none]
    intro z hz hid
    exact hi (List.mem_map.mpr ⟨z, hz, eq_of_beq hid⟩)
  rw [results, hfind, Option.bind_none, Option.getD_none]

end Results

theorem Valued.congr
    {V : Type} {M : Meaning V} {locals : Locals V} {val val' : TreeId → V} {ts : List Tree} {v : V}
    (h : Valued M val locals ts v)
    (heq : ∀ y ∈ ts.flatMap Tree.postorder, val' y.id = val y.id) :
    Valued M val' locals ts v := by
  have hpart : ∀ {t u : Tree}, t.subtrees = [u] → ∀ y ∈ u.postorder, y ∈ t.postorder := by
    intro t u hsubtrees y hy
    exact Tree.mem_postorder_trans (Tree.mem_postorder_of_mem_subtrees (by simp [hsubtrees])) hy
  induction h with
  | @ret locals t u rest hkind hsubtrees hval =>
      have hu : ∀ y ∈ u.postorder, val' y.id = val y.id := fun y hy =>
        heq y (by simp [hpart hsubtrees y hy])
      rw [← hu u u.mem_postorder_self]
      refine .ret hkind hsubtrees fun y hy => ?_
      rw [hu y hy]
      exact hval y hy
  | @stLocal locals t u rest w hkind hsubtrees hval _ ih =>
      have hu : ∀ y ∈ u.postorder, val' y.id = val y.id := fun y hy =>
        heq y (by simp [hpart hsubtrees y hy])
      refine .stLocal hkind hsubtrees (fun y hy => ?_) ?_
      · rw [hu y hy]
        exact hval y hy
      · rw [hu u u.mem_postorder_self]
        exact ih fun y hy => heq y (by simp [List.mem_flatMap.mp hy])
  | @discard locals t u rest w hkind hsubtrees hval _ ih =>
      refine .discard hkind hsubtrees (fun y hy => ?_) ?_
      · rw [heq y (by simp [hpart hsubtrees y hy])]
        exact hval y hy
      · exact ih fun y hy => heq y (by simp [List.mem_flatMap.mp hy])

/-- The trees below a statement are numbered apart from each other and from all that
follow. -/
theorem nodup_ids_statement
    {t u : Tree} {rest : List Tree} (hsubtrees : t.subtrees = [u])
    (hnodup : (((t :: rest).flatMap Tree.postorder).map Tree.id).Nodup) :
    (u.postorder.map Tree.id).Nodup ∧ ((rest.flatMap Tree.postorder).map Tree.id).Nodup ∧
      ∀ y ∈ rest.flatMap Tree.postorder, y.id ∉ u.postorder.map Tree.id := by
  have hids : ((t :: rest).flatMap Tree.postorder).map Tree.id =
      u.postorder.map Tree.id ++ t.id :: (rest.flatMap Tree.postorder).map Tree.id := by
    rw [List.flatMap_cons, Tree.postorder_eq t, hsubtrees]
    simp
  rw [hids, List.nodup_append] at hnodup
  obtain ⟨hu, hrest, hapart⟩ := hnodup
  refine ⟨hu, hrest.of_cons, ?_⟩
  intro y hy hmem
  exact hapart y.id hmem y.id (List.mem_cons_of_mem _ (List.mem_map_of_mem hy)) rfl

section

variable {V : Type} {M : Meaning V} {locals : Locals V} {ts : List Tree} {v : V}
  (h : Runs M locals ts v) (hnodup : ((ts.flatMap Tree.postorder).map Tree.id).Nodup)
include h hnodup

/-- The results of all trees can be given at once, since every tree is run once. -/
theorem Runs.valued : ∃ val, Valued M val locals ts v := by
  induction h with
  | @ret locals t rest v hkind hvalue =>
      obtain ⟨u, hsubtrees, hu⟩ := Tree.evals_eq_singleton.mp hvalue
      obtain ⟨hnodupu, -, -⟩ := nodup_ids_statement hsubtrees hnodup
      have hval := Tree.eval_eq_results hnodupu hu fun _ => v
      have hself := hval u u.mem_postorder_self
      rw [hu, Option.some_inj] at hself
      refine ⟨u.results M locals fun _ => v, ?_⟩
      have hret : Valued M _ locals (t :: rest) _ := .ret hkind hsubtrees hval
      rwa [← hself] at hret
  | @stLocal locals t rest v w hkind hvalue _ ih =>
      obtain ⟨u, hsubtrees, hu⟩ := Tree.evals_eq_singleton.mp hvalue
      obtain ⟨hnodupu, hnoduprest, hapart⟩ := nodup_ids_statement hsubtrees hnodup
      obtain ⟨val, hvalued⟩ := ih hnoduprest
      have hval := Tree.eval_eq_results hnodupu hu val
      have hself := hval u u.mem_postorder_self
      rw [hu, Option.some_inj] at hself
      refine ⟨u.results M locals val, .stLocal hkind hsubtrees hval ?_⟩
      rw [← hself]
      exact hvalued.congr fun y hy => Tree.results_of_not_mem (hapart y hy)
  | @discard locals t rest v w hkind hvalue _ ih =>
      obtain ⟨u, hsubtrees, hu⟩ := Tree.evals_eq_singleton.mp hvalue
      obtain ⟨hnodupu, hnoduprest, hapart⟩ := nodup_ids_statement hsubtrees hnodup
      obtain ⟨val, hvalued⟩ := ih hnoduprest
      refine ⟨u.results M locals val, .discard hkind hsubtrees
        (Tree.eval_eq_results hnodupu hu val) ?_⟩
      exact hvalued.congr fun y hy => Tree.results_of_not_mem (hapart y hy)

/-- With every value in place and every restored interval backed, trees that carry notes
return what the statements return. -/
theorem Runs.run_eq {n : Notes} {clean : IntervalId → Prop}
    (hinPlace : InPlace n (fun _ => []) (ts.flatMap Tree.postorder))
    (hbacked : Backed n clean (ts.flatMap Tree.postorder)) {m : RegisterMachine V}
    (hmemory : ∀ i, clean i → ∃ x, n.content i = .slot x ∧ m.memory i = locals x) :
    RegisterMachine.run M n (ts.flatMap Tree.postorder) m = some v := by
  obtain ⟨val, hvalued⟩ := h.valued hnodup
  refine hvalued.run_eq ⟨_, clean, ⟨fun _ _ hc => ?_, fun i hi => ?_⟩, hinPlace, hbacked⟩
  · cases hc
  · obtain ⟨x, hx, hm⟩ := hmemory i hi
    rw [hx, hm, Content.value]

end

end LinearScan
