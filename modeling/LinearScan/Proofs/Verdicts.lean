import LinearScan.Proofs.MirroredScan

/-!
# Verdicts on intervals

Most intervals are told apart by their owners.  Two temporaries are compared through the trees
that compute them.  From a tree a comparison goes to its subtrees, and then to its parent.  It
never comes to the operands of a store: the only subtree of a store is the tree from which the
store was reached, so that the comparison is circular before.  Nor does it come to what is noted
at a tree, since different trees have different places.  So the operands behind the variable of
a store do not matter to any comparison, and hence not to a scan.
-/

namespace LinearScan

open Allocator

/-! ## Comparisons that owners decide -/

/-- The owners are different variables, or only one of them is a variable. -/
def Owner.Apart : Owner → Owner → Prop
  | .slot k, .slot l => k ≠ l
  | .temp _, .temp _ => False
  | _, _ => True

theorem Owner.apart_iff {o o' : Owner} :
    o.Apart o' ↔ o ≠ o' ∧ (o.isTemp = false ∨ o'.isTemp = false) := by
  cases o <;> cases o' <;> simp [Apart, isTemp]

theorem Owner.Apart.trim (T : Trim) {o o' : Owner} (h : o.Apart o') :
    (o.trim T).Apart (o'.trim T) := by
  cases o <;> cases o' <;> exact h

section Comparisons

variable {T : Trim} {g : Graph} {n : Notes} {i j : IntervalId}

theorem alike_of_apart (h : (n.interval i).owner.Apart (n.interval j).owner) :
    alike g n (.interval i) (.interval j) = .ok false :=
  have ⟨howner, hslot⟩ := Owner.apart_iff.mp h
  alike_of_slot howner hslot

theorem discerned_of_apart (h : (n.interval i).owner.Apart (n.interval j).owner) :
    Discerned T g n i j := by
  intro n' hlives
  rw [← hlives.owner_eq i, ← hlives.owner_eq j] at h
  have htrim : ((n'.trim T).interval i).owner.Apart ((n'.trim T).interval j).owner := by
    rw [Notes.interval_trim, Notes.interval_trim]
    exact h.trim T
  rw [Blind, alike_of_apart h, alike_of_apart htrim]

end Comparisons

/-! ## Parts in turn -/

namespace Part

variable {deep deep' : Entity → Entity → Verdict}

/-- Two pairs of records have the same verdict if their first parts have, and the others where
it comes to them. -/
theorem compareFields_congr {p q p' q' : Part} {fs gs fs' gs' : List (String × Part)}
    {l m : String} (hfirst : p'.compare deep' q' = p.compare deep q)
    (hrest : p.compare deep q = .alike → compareFields deep' fs' gs' = compareFields deep fs gs) :
    compareFields deep' ((l, p') :: fs') ((m, q') :: gs') =
      compareFields deep ((l, p) :: fs) ((m, q) :: gs) := by
  rw [compareFields, compareFields, hfirst]
  cases hverdict : p.compare deep q with
  | alike => exact hrest hverdict
  | different => rfl
  | circular => rfl

/-- Lists of trees have the same verdict if their members have. -/
theorem compareAll_ofTree {T : Trim} {ts us : List Tree}
    (h : ∀ t ∈ ts, ∀ u ∈ us,
      deep' (.tree (t.trim T)) (.tree (u.trim T)) = deep (.tree t) (.tree u)) :
    compareAll deep' ((ts.map (Tree.trim T)).map ofTree) ((us.map (Tree.trim T)).map ofTree) =
      compareAll deep (ts.map ofTree) (us.map ofTree) := by
  induction ts generalizing us with
  | nil => simp [compareAll]
  | cons t ts ih =>
      cases us with
      | nil => simp [compareAll]
      | cons u us =>
          have hfirst := h t (by simp) u (by simp)
          simp only [List.map_cons, compareAll]
          rw [ih fun t' ht u' hu => h t' (List.mem_cons_of_mem t ht) u' (List.mem_cons_of_mem u hu)]
          simp only [ofTree, compare, hfirst]

/-- Operands that are no edges are compared without going deeper. -/
theorem compare_ofOperand (n n' : Notes) {o o' : Operand} (ho : o.edge? = none)
    (ho' : o'.edge? = none) :
    (ofOperand n' o).compare deep' (ofOperand n' o') =
      (ofOperand n o).compare deep (ofOperand n o') := by
  rcases o with (k | w) | op | ⟨e, c⟩
  case edge => cases ho
  all_goals
    rcases o' with (k' | w') | op' | ⟨e', c'⟩
    case edge => cases ho'
    all_goals simp only [ofOperand, compare]

theorem compareAll_ofOperand {n n' : Notes} {os os' : List Operand}
    (hos : os.filterMap Operand.edge? = []) (hos' : os'.filterMap Operand.edge? = []) :
    compareAll deep' (os.map (ofOperand n')) (os'.map (ofOperand n')) =
      compareAll deep (os.map (ofOperand n)) (os'.map (ofOperand n)) := by
  rw [List.filterMap_eq_nil_iff] at hos hos'
  induction os generalizing os' with
  | nil => simp only [List.map_nil, compareAll]
  | cons o os ih =>
      cases os' with
      | nil => simp only [List.map_nil, List.map_cons, compareAll]
      | cons o' os' =>
          have hfirst : (ofOperand n' o).compare deep' (ofOperand n' o') =
              (ofOperand n o).compare deep (ofOperand n o') :=
            compare_ofOperand n n' (hos o (by simp)) (hos' o' (by simp))
          simp only [List.map_cons, compareAll]
          rw [hfirst, ih (fun x hx => hos x (List.mem_cons_of_mem o hx))
            fun x hx => hos' x (List.mem_cons_of_mem o' hx)]

end Part

/-! ## Pairs that are being compared -/

namespace Entity

/-- The entity without the operands that are left out. -/
def trim (T : Trim) : Entity → Entity
  | .tree t => .tree (t.trim T)
  | e => e

@[simp]
theorem same_trim (T : Trim) (a b : Entity) : (a.trim T).same (b.trim T) = a.same b := by
  cases a <;> cases b <;> simp [trim, same]

variable {T : Trim} {g : Graph} {n : Notes} {fuel : Nat} {pending : List (Entity × Entity)}

/-- Two pairs of entities have the same verdict if their records have. -/
theorem compareFrom_trim (pending : List (Entity × Entity)) {a b : Entity}
    (h : a.same b = false →
      ((a.trim T).record (g.trim T) (n.trim T)).compare
          (compareFrom (g.trim T) (n.trim T) fuel
            (((a, b) :: pending).map (Prod.map (trim T) (trim T))))
          ((b.trim T).record (g.trim T) (n.trim T)) =
        (a.record g n).compare (compareFrom g n fuel ((a, b) :: pending)) (b.record g n)) :
    compareFrom (g.trim T) (n.trim T) (fuel + 1) (pending.map (Prod.map (trim T) (trim T)))
        (a.trim T) (b.trim T) =
      compareFrom g n (fuel + 1) pending a b := by
  rw [compareFrom, compareFrom, same_trim]
  cases hsame : a.same b with
  | true => simp
  | false =>
      have hany : ((pending.map (Prod.map (trim T) (trim T))).any fun p =>
            p.1.same (a.trim T) && p.2.same (b.trim T)) =
          pending.any fun p => p.1.same a && p.2.same b := by
        simp [List.any_map, Function.comp_def]
      have hrecord := h hsame
      rw [List.map_cons, Prod.map_apply] at hrecord
      rw [hany, hrecord]

/-- Blocks are told apart by their offsets. -/
theorem compareFrom_block {b c : BlockId}
    (h : b ≠ c → (g.block b).offset ≠ (g.block c).offset) :
    compareFrom (g.trim T) (n.trim T) fuel (pending.map (Prod.map (trim T) (trim T)))
        (.block b) (.block c) =
      compareFrom g n fuel pending (.block b) (.block c) := by
  cases fuel with
  | zero => rfl
  | succ fuel =>
      refine compareFrom_trim _ (a := .block b) (b := .block c) fun hsame => ?_
      have hoffset := h (by simpa [same] using hsame)
      simp [trim, record, Part.compare, Part.compareFields, hoffset]

/-- The subtrees of two trees have no verdict if they are a pair that is being compared. -/
theorem compare_pending {u v : Tree} (huv : u.id ≠ v.id) (x : Entity × Entity) :
    (Part.list ([u].map Part.ofTree)).compare
      (compareFrom g n fuel (x :: (.tree u, .tree v) :: pending))
      (Part.list ([v].map Part.ofTree)) = .circular := by
  have hback : compareFrom g n fuel (x :: (.tree u, .tree v) :: pending) (.tree u) (.tree v) =
      .circular := by
    cases fuel with
    | zero => rfl
    | succ fuel => simp [compareFrom, same, huv]
  simp only [Part.compare, List.map_cons, List.map_nil, Part.compareAll, Part.ofTree, hback,
    List.length_cons, if_true]

/-- Trees that take the two values of the pair that is being compared, and no others, have no
verdict. -/
theorem compareFrom_taker {p q u v : Tree} (huv : u.id ≠ v.id)
    (h : p.kind = q.kind → p.subtrees = [u] ∧ q.subtrees = [v]) :
    compareFrom (g.trim T) (n.trim T) fuel
        (((.tree u, .tree v) :: pending).map (Prod.map (trim T) (trim T)))
        (.tree (p.trim T)) (.tree (q.trim T)) =
      compareFrom g n fuel ((.tree u, .tree v) :: pending) (.tree p) (.tree q) := by
  cases fuel with
  | zero => rfl
  | succ fuel =>
      refine compareFrom_trim _ (a := .tree p) (b := .tree q) fun _ => ?_
      simp only [trim, record, Part.compare, if_true, Tree.kind_trim, Tree.subtrees_trim]
      refine Part.compareFields_congr rfl fun halike => ?_
      obtain ⟨hp, hq⟩ := h (by simpa [Part.compare] using halike)
      -- The subtrees are the pair that is being compared.
      rw [hp, hq]
      refine Part.compareFields_congr ?_ fun halike => ?_
      · rw [compare_pending huv]
        exact compare_pending (by simpa using huv) _
      · rw [compare_pending huv] at halike
        cases halike

end Entity

/-! ## Values -/

/-- A graph as it is read from a program. -/
structure Graph.Legible (g : Graph) (pending : List Tree) : Prop extends g.Formed pending where
  placed : g.Placed
  directed : g.Directed pending

/-- The tree is executed and computes a value. -/
structure Graph.Computes (g : Graph) (t : Tree) : Prop where
  mem : t ∈ g.treesFrom 0
  isValue : t.kind.isValue = true

/-- Different trees have different places. -/
def Notes.Discrete (n : Notes) (g : Graph) : Prop :=
  ∀ t ∈ g.treesFrom 0, ∀ u ∈ g.treesFrom 0, n.index t = n.index u → t.id = u.id

theorem Notes.Discrete.congr {g : Graph} {n n' : Notes} (h : n.Discrete g)
    (hindex : ∀ u, n'.index u = n.index u) : n'.Discrete g := by
  intro t ht u hu htu
  rw [hindex, hindex] at htu
  exact h t ht u hu htu

namespace Graph.Formed

variable {g : Graph} {pending : List Tree} {t : Tree}

theorem mem_allTrees_of_executed (hg : g.Formed pending) (ht : t ∈ g.treesFrom 0) :
    t ∈ g.allTrees pending := by
  obtain ⟨b, -, htb⟩ := List.mem_flatMap.mp ht
  exact hg.mem_allTrees htb

/-- A tree that takes a value but computes none takes no other value. -/
theorem subtrees_eq_of_taker (hg : g.Formed pending) {p : Tree} (hp : p ∈ g.treesFrom 0)
    (htp : t ∈ p.subtrees) (hvalue : p.kind.isValue = false) : p.subtrees = [t] := by
  have harity := hg.planted.arity_eq p (hg.mem_allTrees_of_executed hp)
  have hone : p.subtrees.length ≤ 1 := by
    rw [harity]
    cases hkind : p.kind <;> simp_all [TreeKind.arity, TreeKind.isValue]
  rcases hsub : p.subtrees with _ | ⟨u, _ | ⟨w, rest⟩⟩
  · simp [hsub] at htp
  · rw [hsub, List.mem_singleton] at htp
    rw [htp]
  · simp [hsub] at hone

end Graph.Formed

namespace Graph.Computes

variable {g : Graph} {pending : List Tree} {t u : Tree}

theorem subtree (hg : g.Formed pending) (ht : t ∈ g.treesFrom 0) (hu : u ∈ t.subtrees) :
    g.Computes u := by
  obtain ⟨b, hb, htb⟩ := List.mem_flatMap.mp ht
  obtain ⟨before, after, hsplit⟩ := List.append_of_mem htb
  refine ⟨List.mem_flatMap.mpr ⟨b, hb, ?_⟩, hg.subtree_isValue htb hu⟩
  rw [hsplit]
  exact List.mem_append_left _ (hg.subtree_mem_before hsplit hu)

theorem of_parent (hg : g.Formed pending) (ht : t ∈ g.treesFrom 0) (h : g.parent t = some u) :
    g.Computes t := by
  obtain ⟨b, -, htb⟩ := List.mem_flatMap.mp ht
  exact ⟨ht, hg.isValue_of_parent htb h⟩

theorem exists_parent (hg : g.Formed pending) (ht : g.Computes t) :
    ∃ p ∈ g.treesFrom 0, t ∈ p.subtrees ∧ g.parent t = some p := by
  obtain ⟨b, hb, htb⟩ := List.mem_flatMap.mp ht.mem
  obtain ⟨p, hp, htp, hparent⟩ := hg.exists_parent htb ht.isValue
  exact ⟨p, List.mem_flatMap.mpr ⟨b, hb, hp⟩, htp, hparent⟩

theorem block_lt (hg : g.Legible pending) (ht : g.Computes t) : t.block < g.blockCount :=
  (hg.directed t (hg.mem_allTrees_of_executed ht.mem)).1

/-- A tree that computes a value has no edges. -/
theorem edges_eq (hg : g.Legible pending) (ht : g.Computes t) (n : Notes) :
    (n.operands t).filterMap Operand.edge? = [] := by
  have hvalue := ht.isValue
  have hedges : t.edges = [] := by
    rcases (hg.directed t (hg.mem_allTrees_of_executed ht.mem)).2 with hkind | hkind | hedges
    · rw [hkind] at hvalue
      cases hvalue
    · rw [hkind] at hvalue
      cases hvalue
    · exact hedges
  rw [Tree.edges] at hedges
  simp [Notes.operands, List.filterMap_append, hedges, Operand.edge?]

/-- A tree that computes a value is not trimmed itself. -/
theorem operands_trim (ht : g.Computes t) (n : Notes) :
    (n.trim .stores).operands (t.trim .stores) = n.operands t := by
  have hvalue := ht.isValue
  rw [Notes.operands_trim, Notes.operands]
  cases hkind : t.kind <;> first | rfl | (rw [hkind] at hvalue; cases hvalue)

end Graph.Computes

/-- Trees that compute values have the same verdict whether or not operands of stores are left
out. -/
theorem Entity.compareFrom_values {g : Graph} {waiting : List Tree} {n : Notes}
    (hg : g.Legible waiting) (hn : n.Discrete g) (fuel : Nat) {pending : List (Entity × Entity)}
    {u v : Tree} (hu : g.Computes u) (hv : g.Computes v) :
    compareFrom (g.trim .stores) (n.trim .stores) fuel
        (pending.map (Prod.map (trim .stores) (trim .stores)))
        (.tree (u.trim .stores)) (.tree (v.trim .stores)) =
      compareFrom g n fuel pending (.tree u) (.tree v) := by
  induction fuel generalizing pending u v with
  | zero => rfl
  | succ fuel ih =>
      refine compareFrom_trim _ (a := .tree u) (b := .tree v) fun hsame => ?_
      have huv : u.id ≠ v.id := by simpa [same] using hsame
      obtain ⟨p, hp, hup, hparent⟩ := hu.exists_parent hg.toFormed
      obtain ⟨q, hq, hvq, hparent'⟩ := hv.exists_parent hg.toFormed
      simp only [trim, record, Part.compare, if_true, Tree.kind_trim, Tree.subtrees_trim,
        Tree.block_trim, Graph.parent_trim, Notes.tree_trim, hu.operands_trim, hv.operands_trim,
        hparent, hparent', Option.map_some, Part.ofOption]
      refine Part.compareFields_congr rfl fun _ => ?_
      refine Part.compareFields_congr ?_ fun _ => ?_
      · simp only [Part.compare, List.length_map]
        exact if_congr Iff.rfl (Part.compareAll_ofTree fun t ht t' ht' =>
          ih (.subtree hg.toFormed hu.mem ht) (.subtree hg.toFormed hv.mem ht')) rfl
      refine Part.compareFields_congr ?_ fun _ => ?_
      · simp only [Part.compare, List.length_map]
        exact if_congr Iff.rfl
          (Part.compareAll_ofOperand (hu.edges_eq hg n) (hv.edges_eq hg n)) rfl
      refine Part.compareFields_congr ?_ fun _ => ?_
      · -- The parents compute values as well, or they have no verdict.
        rw [Part.ofTree, Part.ofTree, Part.ofTree, Part.ofTree, Part.compare, Part.compare]
        by_cases hvalues : p.kind.isValue = true ∧ q.kind.isValue = true
        · exact ih ⟨hp, hvalues.1⟩ ⟨hq, hvalues.2⟩
        · refine compareFrom_taker huv fun hkind => ?_
          rw [hkind, and_self, Bool.not_eq_true] at hvalues
          exact ⟨hg.subtrees_eq_of_taker hp hup (hkind ▸ hvalues),
            hg.subtrees_eq_of_taker hq hvq hvalues⟩
      refine Part.compareFields_congr ?_ fun _ => ?_
      · rw [Part.compare, Part.compare]
        refine compareFrom_block fun hne hoffset => hne ?_
        exact hg.placed.offset_inj (hu.block_lt hg) (hv.block_lt hg) hoffset
      refine Part.compareFields_congr rfl fun halike => absurd (hn u hu.mem v hv.mem ?_) huv
      have hplaces : ((n.tree u).index : Int) = (n.tree v).index := by
        simpa [Part.compare] using halike
      exact Int.ofNat_inj.mp hplaces

/-! ## Intervals -/

section Intervals

variable {g : Graph} {waiting : List Tree} {n : Notes} {i j : IntervalId}

theorem Entity.count_trim (T : Trim) (g : Graph) (n : Notes) :
    Entity.count (g.trim T) (n.trim T) = Entity.count g n :=
  rfl

/-- Two temporaries have the same verdict whether or not operands of stores are left out. -/
theorem blind_of_temps (hg : g.Legible waiting) (hn : n.Discrete g) (hij : i ≠ j) {u v : Tree}
    (hi : (n.interval i).owner = .temp u) (hj : (n.interval j).owner = .temp v)
    (hu : g.Computes u) (hv : g.Computes v) (huses : (n.interval i).uses ≠ []) :
    Blind .stores g n i j := by
  have hverdict : Entity.compare (g.trim .stores) (n.trim .stores) (.interval i) (.interval j) =
      Entity.compare g n (.interval i) (.interval j) := by
    rw [Entity.compare, Entity.compare, Entity.count_trim]
    refine Entity.compareFrom_trim [] (a := .interval i) (b := .interval j) fun _ => ?_
    simp only [Entity.trim, Entity.record, Part.compare, if_true, Notes.interval_trim,
      Interval.owner_trim, hi, hj, Owner.trim, Part.ofOwner]
    refine Part.compareFields_congr ?_ fun _ => ?_
    · exact Entity.compareFrom_values hg hn _ hu hv
    · -- Temporaries are not found alike by their uses, so that it ends there.
      have huses' : (n.interval i).uses.map (Tree.trim .stores) ≠ [] := by simpa using huses
      have hback := compare_uses (g := g) (n := n) hij
        (Entity.count g n * Entity.count g n) huses (n.interval j).uses
      have hback' := compare_uses (g := g.trim .stores) (n := n.trim .stores) hij
        (Entity.count g n * Entity.count g n) huses' ((n.interval j).uses.map (Tree.trim .stores))
      rw [List.length_map, List.length_map] at hback'
      refine Part.compareFields_congr (hback'.trans hback.symm) fun halike => ?_
      have hne := hback.symm.trans halike
      split at hne <;> cases hne
  rw [Blind, alike, alike, hverdict]

end Intervals

namespace Alloc

variable {T : Trim} {g : Graph} {pending : List Tree} {t : Tree} {s s' : Allocator} {i j : Nat}

section

variable (hs : s.Owned g) (hi : i < s.notes.intervalCount) (hj : j < s.notes.intervalCount)
  (hij : i ≠ j) (h : (s.interval i).owner.isTemp = false ∨ (s.interval j).owner.isTemp = false)
include hs hi hj hij h

/-- A local variable and any other interval have different owners, and one that is a variable. -/
theorem owner_apart : (s.interval i).owner.Apart (s.interval j).owner := by
  cases hiowner : (s.interval i).owner with
  | slot k =>
      cases hjowner : (s.interval j).owner with
      | slot l =>
          rintro rfl
          exact hij (hs.identified.slot_inj hi hj hiowner hjowner)
      | temp v => trivial
  | temp u =>
      cases hjowner : (s.interval j).owner with
      | slot l => trivial
      | temp v =>
          rw [hiowner, hjowner] at h
          rcases h with h | h <;> cases h

/-- A local variable is told apart from every other interval. -/
theorem discerned_of_slot : Discerned T g s.notes i j :=
  discerned_of_apart (owner_apart hs hi hj hij h)

end

/-- Any two intervals compare alike whether or not operands of stores are left out. -/
theorem discerned_of_produced (hg : g.Legible pending) (hs : s.Owned g)
    (hproduced : s.Produced g.Computes) (hdiscrete : s.notes.Discrete g)
    (hi : i < s.notes.intervalCount) (hj : j < s.notes.intervalCount) (hij : i ≠ j) :
    Discerned .stores g s.notes i j := by
  by_cases hslot : (s.interval i).owner.isTemp = false ∨ (s.interval j).owner.isTemp = false
  · exact discerned_of_slot hs hi hj hij hslot
  · rw [not_or, Bool.not_eq_false, Bool.not_eq_false] at hslot
    obtain ⟨u, p, hu, -, huses, -⟩ := hs.owner_temp i ((hs.isTemp_iff hi).mp hslot.1) hi
    obtain ⟨v, q, hv, -⟩ := hs.owner_temp j ((hs.isTemp_iff hj).mp hslot.2) hj
    intro n hlives
    have huses' : (n.interval i).uses = [p] :=
      ((congrArg Interval.uses (hlives.life_eq i) :)).trans huses
    exact blind_of_temps hg (hdiscrete.congr hlives.index_eq) hij ((hlives.owner_eq i).trans hu)
      ((hlives.owner_eq j).trans hv) (hproduced i u hi hu) (hproduced j v hj hv)
      (by simp [huses'])

/-! ## The scan -/

/-- In the state `s`, in which the tree `t` is scanned, comparisons do not depend on the
operands of stores. -/
structure Readied (g : Graph) (t : Tree) (s : Allocator) : Prop where
  orderly : s.Orderly g
  produced : s.Produced g.Computes
  discrete : s.notes.Discrete g
  regs : ∀ u ∈ t.subtrees, 0 ≤ s.notes.reg u

namespace Readied

theorem moves {rs : List (Allocator × IntervalId)} (hg : g.Formed pending)
    (ht : t ∈ g.treesFrom 0) (h : Readied g t s) (hmoves : Moves g t .placing rs s s') :
    Readied g t s' := by
  obtain ⟨horderly, hregs⟩ := hmoves.orderly h.orderly h.regs
  exact ⟨horderly, hmoves.produced h.produced fun _ _ p => .of_parent hg ht,
    h.discrete.congr hmoves.extends.index_eq, fun u hu => hregs u (h.regs u hu)⟩

section

variable (hg : g.Legible pending)
include hg

theorem removable (h : Readied g t s) (hi : i < s.notes.intervalCount) :
    Removable .stores g s i := by
  intro j hj
  have hji : j ≠ i := by simpa using List.mem_takeWhile_imp hj
  have hjlt := h.orderly.active_lt j ((List.takeWhile_sublist _).subset hj)
  exact discerned_of_produced hg h.orderly.toOwned h.produced h.discrete hjlt hi hji

theorem seatable (h : Readied g t s) (hi : i < s.notes.intervalCount) :
    Seatable .stores g t s i where
  reload _ r hr := by
    have hri : r.interval ≠ i := by simpa using List.mem_takeWhile_imp hr
    have hrlt := h.orderly.restore_lt t r ((List.takeWhile_sublist _).subset hr)
    exact discerned_of_produced hg h.orderly.toOwned h.produced h.discrete hrlt hi hri
  evict use v _ hvictim := h.removable hg (h.orderly.active_lt v (mem_active_of_victim hvictim))

section

variable (ht : t ∈ g.treesFrom 0) (h : Readied g t s)
include ht h

theorem placeable :
    Placeable .stores g t s where
  load _ _ hslot :=
    h.seatable hg (Nat.lt_of_lt_of_le (h.orderly.slotOf_lt hslot) h.orderly.slots_le)
  store _ _ _ k j _ _ hj :=
    h.removable hg (h.orderly.occupied_lt k j (Option.join_eq_some_iff.mp hj))
  result hload hstore p hparent :=
    (h.moves hg.toFormed ht (.single (.create p hparent hload hstore))).seatable hg
      (Nat.lt_succ_self _)

theorem recover_mirrors :
    Mirrors (Allocator.trim .stores) (recover g t) (recover (g.trim .stores) (t.trim .stores))
      s := by
  have hreleased : ∀ s₁, release t { s with tree := some t, reuse := false } = .ok () s₁ →
      Readied g t s₁ := fun s₁ hrelease =>
    h.moves hg.toFormed ht (.move (.turn s (some t) false) (.single (release_move hrelease)))
  refine Alloc.recover_mirrors (fun s₁ hrelease => ?_) fun s₁ s₂ hrelease hspills => ?_
  · refine carrySpills_mirrors (P := fun s => Readied g t s ∧
      ∀ sp ∈ (s₁.notes.tree t).spills, sp ∈ (s.notes.tree t).spills) ?_ ?_
      ⟨hreleased s₁ hrelease, fun sp hsp => hsp⟩
    · rintro s ⟨hs, hspills⟩ sp hsp
      exact hs.removable hg (hs.orderly.spill_lt t sp (hspills sp hsp))
    · rintro s s' ⟨hs, hspills⟩ sp hsp hcarry
      obtain ⟨hmove, hkeep⟩ := carrySpill_move hcarry (hspills sp hsp)
      exact ⟨hs.moves hg.toFormed ht (.single hmove), fun q hq => hkeep ▸ hspills q hq⟩
  · have hspilled : Readied g t s₂ := (hreleased s₁ hrelease).moves hg.toFormed ht
      (carrySpills_moves hspills fun sp hsp => hsp).placing
    refine carryRestores_mirrors (P := fun rs s => Readied g t s ∧
      ∀ r ∈ rs, ∃ q ∈ (s.notes.tree t).restores, q.interval = r.interval) ?_ ?_
      ⟨hspilled, fun r hr => ⟨r, hr, rfl⟩⟩
    · rintro r rs s ⟨hs, hrecorded⟩ -
      obtain ⟨q, hq, hqr⟩ := hrecorded r (by simp)
      exact hs.seatable hg (hqr ▸ hs.orderly.restore_lt t q hq)
    · rintro k r rs s s' ⟨hs, hrecorded⟩ hcarry
      obtain ⟨hmoves, hkeep⟩ := carryRestore_moves hcarry (hrecorded r (by simp))
      exact ⟨hs.moves hg.toFormed ht hmoves.placing,
        fun q hq => hkeep _ (hrecorded q (by simp [hq]))⟩

theorem scanTree_mirrors :
    Mirrors (Allocator.trim .stores) (scanTree g t) (scanTree (g.trim .stores) (t.trim .stores))
      s := by
  refine Alloc.scanTree_mirrors (h.recover_mirrors hg ht) fun s₁ hrecover => ?_
  obtain ⟨rs, hmoves⟩ := recover_moves hrecover
  have hrecovered := h.moves hg.toFormed ht hmoves.placing
  refine finish_mirrors fun s₂ hrelease => Readied.placeable hg ht ?_
  have hturned := hrecovered.moves hg.toFormed ht (.single (.turn s₁ s₁.tree s.reuse))
  split at hrelease
  · exact hturned.moves hg.toFormed ht (.single (release_move hrelease))
  · obtain ⟨-, rfl⟩ := pure_cases hrelease
    exact hturned

end

end

end Readied

/-- The trees of a block are scanned alike whether or not operands of stores are left out. -/
theorem scanTrees_mirrors_of_legible (hg : g.Legible pending) {b : BlockId}
    (hb : b ∈ g.blocksFrom 0) (hs : s.Orderly g) (hproduced : s.Produced g.Computes)
    (hdiscrete : s.notes.Discrete g) :
    Mirrors (Allocator.trim .stores) (scanTrees g (g.treesOf b))
      (scanTrees (g.trim .stores) ((g.treesOf b).map (Tree.trim .stores))) s := by
  have hmem : ∀ before t ts, g.treesOf b = before ++ t :: ts → t ∈ g.treesFrom 0 := by
    intro before t ts htrees
    exact List.mem_flatMap.mpr ⟨b, hb, by simp [htrees]⟩
  refine scanTrees_mirrors (P := fun ts s => ∃ before, g.treesOf b = before ++ ts ∧
    s.Scanning g before ∧ s.Produced g.Computes ∧ s.notes.Discrete g) ?_ ?_
    ⟨[], rfl, ⟨hs, by simp⟩, hproduced, hdiscrete⟩
  · rintro t ts s ⟨before, htrees, hscan, hproduced, hdiscrete⟩
    exact Readied.scanTree_mirrors hg (hmem before t ts htrees)
      ⟨hscan.orderly, hproduced, hdiscrete, Scanning.subtrees_reg hg.toFormed hscan htrees⟩
  · rintro t ts s s₁ ⟨before, htrees, hscan, hproduced, hdiscrete⟩ h
    have hmoves := scanTree_moves hg.twins_eq h
    exact ⟨before ++ [t], by simp [htrees], scanTree_scanning hg.toFormed hscan htrees h,
      hmoves.produced hproduced fun _ _ p => .of_parent hg.toFormed (hmem before t ts htrees),
      hdiscrete.congr hmoves.extends.index_eq⟩

/-- Blocks are scanned alike whether or not operands of stores are left out. -/
theorem scanBlocks_mirrors_of_legible (hg : g.Legible pending) {s₀ : Allocator}
    (hhas : HasScanned g s₀ [] s) (hproduced : s.Produced g.Computes)
    (hdiscrete : s₀.notes.Discrete g) :
    Mirrors (Allocator.trim .stores) (scanBlocks g (g.blocksFrom 0))
      (scanBlocks (g.trim .stores) (g.blocksFrom 0)) s := by
  refine scanBlocks_mirrors hg.toFormed (P := fun _ s => s.Produced g.Computes) ?_ ?_
    (List.nil_append _).symm hhas hproduced
  · intro scanned b bs s s₁ hsplit hhas hproduced henter
    have hentered := enter_entered hhas.orderly (HasScanned.exits hhas) henter
    exact scanTrees_mirrors_of_legible hg (by simp [hsplit]) hentered.orderly
      (Produced.congr hproduced hentered.continues (enter_notes henter).1)
      (hdiscrete.congr (hhas.continues.trans hentered.continues).index_eq)
  · intro scanned b bs s s₁ hsplit hhas hproduced h
    refine scanBlock_produced hg.toFormed hhas h hproduced fun t ht _ _ p => ?_
    exact .of_parent hg.toFormed (List.mem_flatMap.mpr ⟨b, by simp [hsplit], ht⟩)

end Alloc

/-! ## Programs -/

/-- Trees that are numbered have the same place only if they are the same. -/
theorem Notes.id_eq_of_index_number {ts : List Tree} {t u : Tree} (n : Notes) (start : Nat)
    (ht : ∃ v ∈ ts, v.id = t.id) (hu : ∃ v ∈ ts, v.id = u.id)
    (h : (n.number start ts).index t = (n.number start ts).index u) : t.id = u.id := by
  induction ts generalizing n start with
  | nil => simp at ht
  | cons v ts ih =>
      rw [number] at h
      -- A tree that does not come again has the first place, and the others have later ones.
      have hfirst : ∀ x : Tree, (∃ w ∈ v :: ts, w.id = x.id) → (¬∃ w ∈ ts, w.id = x.id) →
          v.id = x.id ∧ ((n.modifyTree v fun note => { note with index := start }).number
            (start + 1) ts).index x = start := by
        rintro x ⟨w, hw, hwx⟩ hnone
        have hvx : v.id = x.id := by
          rcases List.mem_cons.mp hw with rfl | hw
          · exact hwx
          · exact absurd ⟨w, hw, hwx⟩ hnone
        refine ⟨hvx, ?_⟩
        rw [index_number_of_not_mem fun w hw hid => hnone ⟨w, hw, hid⟩, index, tree_modifyTree,
          if_pos hvx]
      by_cases hlater : ∃ w ∈ ts, w.id = t.id
      · by_cases hlater' : ∃ w ∈ ts, w.id = u.id
        · exact ih _ _ hlater hlater' h
        · have hlow := (index_number_bounds (n.modifyTree v fun note =>
            { note with index := start }) (start + 1) hlater).1
          rw [h, (hfirst u hu hlater').2] at hlow
          omega
      · by_cases hlater' : ∃ w ∈ ts, w.id = u.id
        · have hlow := (index_number_bounds (n.modifyTree v fun note =>
            { note with index := start }) (start + 1) hlater').1
          rw [← h, (hfirst t ht hlater).2] at hlow
          omega
        · exact (hfirst t ht hlater).1.symm.trans (hfirst u hu hlater').1

namespace Program

open Alloc

theorem import?_legible {p : Program} {m : Imported} (h : p.import? = .ok m) :
    (∃ pending, m.graph.Legible pending) ∧ m.notes.Discrete m.graph := by
  obtain ⟨r, hread, hr, hgraph, -⟩ := import?_read h
  obtain ⟨s, n, -, -, hgraph', -, -, hnotes, -⟩ := import?_cases h
  refine ⟨⟨r.stack, ?_⟩, ?_⟩
  · rw [hgraph]
    have hchained := hr.chained
    rw [hr.first_eq] at hchained
    exact ⟨⟨hr.linked, hchained, hr.planted, hr.twins_eq⟩, hread.placed, hread.directed⟩
  · intro t ht u hu htu
    rw [hnotes, ← hgraph'] at htu
    exact Notes.id_eq_of_index_number n 0 ⟨t, ht, rfl⟩ ⟨u, hu, rfl⟩ htu

/-- Operands behind the variable of a store do not matter to a scan. -/
theorem mirrored_stores (p : Program) (settings : Settings) : p.Mirrored .stores settings := by
  refine mirrored_of_blocks fun m s h hsurvey => ?_
  obtain ⟨⟨pending, hg⟩, hdiscrete⟩ := import?_legible h
  obtain ⟨-, hfresh, -⟩ := import?_formed h
  obtain ⟨hhas, hlisted⟩ := survey_hasScanned hfresh hsurvey
  refine scanBlocks_mirrors_of_legible hg hhas ?_ (hdiscrete.congr fun u => ?_)
  · intro i u hi howner
    rw [hlisted.count_eq] at hi
    rw [hlisted.owner_eq i hi] at howner
    cases howner
  · exact hlisted.index_eq u

end Program
end LinearScan
