import LinearScan.Proofs.Origins

/-!
# Leaving operands out

Two kinds of operands can be left out of a program: what is pushed, and what stands behind the
variable of a store.  Leaving them out is a map on instructions, trees, graphs and notes.
Reading a program commutes with it, since nothing that is read looks at these operands: the
graph of the program without them is the graph of the program, without them.
-/

namespace LinearScan

/-! ## Steps on mapped states -/

section Mirrors

variable {σ τ α β : Type} {f : σ → τ}

/-- An outcome, with its state changed by `f`. -/
def mapState (f : σ → τ) : EStateM.Result Fault σ α → EStateM.Result Fault τ α
  | .ok a s => .ok a (f s)
  | .error fault s => .error fault (f s)

/-- The step `x'` has the same outcome in the state `f s` as `x` has in `s`. -/
def Mirrors (f : σ → τ) (x : EStateM Fault σ α) (x' : EStateM Fault τ α) (s : σ) : Prop :=
  x' (f s) = mapState f (x s)

theorem mirrors_pure (a : α) (s : σ) : Mirrors f (pure a) (pure a) s :=
  rfl

theorem mirrors_throw (fault : Fault) (s : σ) :
    Mirrors f (throw fault : EStateM Fault σ α) (throw fault) s :=
  rfl

theorem mirrors_modify {change : σ → σ} {change' : τ → τ} {s : σ}
    (h : change' (f s) = f (change s)) : Mirrors f (modify change) (modify change') s :=
  congrArg (EStateM.Result.ok PUnit.unit) h

/-- A composed step is mirrored part by part; the second part only matters where the first
one returns. -/
theorem Mirrors.bind {x : EStateM Fault σ α} {x' : EStateM Fault τ α}
    {k : α → EStateM Fault σ β} {k' : α → EStateM Fault τ β} {s : σ} (hx : Mirrors f x x' s)
    (hk : ∀ a s₁, x s = .ok a s₁ → Mirrors f (k a) (k' a) s₁) :
    Mirrors f (x >>= k) (x' >>= k') s := by
  rw [Mirrors] at hx
  simp only [Mirrors, Bind.bind, EStateM.bind, hx]
  cases h : x s with
  | ok a s₁ => exact hk a s₁ h
  | error fault s₁ => rfl

theorem mirrors_ite {c : Prop} [Decidable c] {x y : EStateM Fault σ α} {x' y' : EStateM Fault τ α}
    {s : σ} (hx : c → Mirrors f x x' s) (hy : ¬c → Mirrors f y y' s) :
    Mirrors f (if c then x else y) (if c then x' else y') s := by
  split
  · next hc => exact hx hc
  · next hc => exact hy hc

/-- A step that starts by looking at the state. -/
theorem mirrors_get_bind {k : σ → EStateM Fault σ β} {k' : τ → EStateM Fault τ β} {s : σ}
    (h : Mirrors f (k s) (k' (f s)) s) : Mirrors f (get >>= k) (get >>= k') s :=
  h

/-- Passes over the same edges are mirrored when the visits are. -/
theorem eachEdge_mirrors {P : σ → Prop} {visit : EdgeId → BlockId → EStateM Fault σ Unit}
    {visit' : EdgeId → BlockId → EStateM Fault τ Unit}
    (hvisit : ∀ e target s, P s → Mirrors f (visit e target) (visit' e target) s)
    (hP : ∀ e target s s', P s → visit e target s = .ok () s' → P s')
    (os : List Operand) {s : σ} (hs : P s) :
    Mirrors f (eachEdge visit os) (eachEdge visit' os) s := by
  induction os generalizing s with
  | nil => exact mirrors_pure () s
  | cons o os ih =>
      cases o with
      | edge e target =>
          refine (hvisit e target s hs).bind ?_
          intro _ s₁ hfirst
          exact ih (hP e target s s₁ hs hfirst)
      | literal l => exact mirrors_throw _ s
      | operator op => exact mirrors_throw _ s

end Mirrors

/-! ## Tables -/

namespace Table

variable {α β : Type} [Inhabited α] [Inhabited β] {f : α → β}

/-- The table whose rows are those of `t`, changed by `f`. -/
def map (f : α → β) (t : Table α) : Table β :=
  ⟨t.rows.map f⟩

section

variable (hf : f default = default) (t : Table α) (i : Nat)
include hf

theorem get_map : (t.map f).get i = f (t.get i) := by
  simp only [get, map, Array.getD_eq_getD_getElem?, Array.getElem?_map]
  cases t.rows[i]? with
  | none => exact hf.symm
  | some a => rfl

theorem map_set (a : α) : (t.set i a).map f = (t.map f).set i (f a) := by
  simp [set, map, hf]

theorem map_modify {change : α → α} {change' : β → β} (h : ∀ a, f (change a) = change' (f a)) :
    (t.modify i change).map f = (t.map f).modify i change' := by
  rw [modify, modify, map_set hf, get_map hf, h]

end

end Table

/-! ## What is left out -/

/-- Which operands are left out. -/
inductive Trim where
  /-- What is pushed. -/
  | constants
  /-- What stands behind the variable of a store. -/
  | stores

namespace Trim

/-- The operands that are left at a tree of the given kind. -/
def operands {α : Type} : Trim → TreeKind → List α → List α
  | .constants, .const, _ => []
  | .stores, .stLocal, os => os.take 1
  | _, _, os => os

variable {α β : Type} (T : Trim)

@[simp]
theorem operands_nil (kind : TreeKind) : T.operands kind ([] : List α) = [] := by
  cases T <;> cases kind <;> rfl

theorem operands_map (kind : TreeKind) (f : α → β) (os : List α) :
    T.operands kind (os.map f) = (T.operands kind os).map f := by
  cases T <;> cases kind <;> simp [operands]

/-- Nothing is left out but at constants and stores. -/
theorem operands_eq {kind : TreeKind} (hconst : kind ≠ .const) (hstore : kind ≠ .stLocal)
    (os : List α) : T.operands kind os = os := by
  cases T <;> cases kind <;> simp_all [operands]

/-- The first operand of a tree that is no constant is not left out. -/
theorem head?_operands {kind : TreeKind} (hconst : kind ≠ .const) (os : List α) :
    (T.operands kind os).head? = os.head? := by
  cases T <;> cases kind <;> cases os <;> simp_all [operands]

end Trim

/-- The instruction without the operands that are left out. -/
def Instr.trim (T : Trim) (instr : Instr) : Instr :=
  match instr.opcode with
  | .push => { instr with operands := T.operands .const instr.operands }
  | .stLocal => { instr with operands := T.operands .stLocal instr.operands }
  | _ => instr

/-- The program without the operands that are left out. -/
def Program.trim (T : Trim) (p : Program) : Program :=
  { p with instrs := p.instrs.map (Instr.trim T) }

/-! ## Trees -/

namespace Tree

mutual

/-- The tree without the operands that are left out. -/
def trim (T : Trim) : Tree → Tree
  | .node i k o b ts => .node i k (T.operands k o) b (trims T ts)

/-- Several trees without the operands that are left out. -/
def trims (T : Trim) : List Tree → List Tree
  | [] => []
  | t :: ts => t.trim T :: trims T ts

end

variable (T : Trim)

theorem trims_eq_map (ts : List Tree) : trims T ts = ts.map (trim T) := by
  induction ts with
  | nil => rfl
  | cons t ts ih => rw [trims, ih, List.map_cons]

@[simp]
theorem id_trim (t : Tree) : (t.trim T).id = t.id := by
  cases t
  rfl

@[simp]
theorem kind_trim (t : Tree) : (t.trim T).kind = t.kind := by
  cases t
  rfl

@[simp]
theorem block_trim (t : Tree) : (t.trim T).block = t.block := by
  cases t
  rfl

theorem operands_trim (t : Tree) : (t.trim T).operands = T.operands t.kind t.operands := by
  cases t
  rfl

@[simp]
theorem subtrees_trim (t : Tree) : (t.trim T).subtrees = t.subtrees.map (trim T) := by
  cases t
  exact trims_eq_map T _

@[simp]
theorem trim_default : (default : Tree).trim T = default := by
  cases T <;> rfl

/-- Execution order does not depend on the operands. -/
theorem postorder_trim (t : Tree) : (t.trim T).postorder = t.postorder.map (trim T) := by
  induction t using inductionOn with
  | node i k o b ts ih =>
      rw [postorder_eq, postorder_eq, subtrees_trim, List.map_append, List.map_flatMap,
        List.flatMap_map, List.map_singleton]
      exact congrArg (· ++ _) (List.flatMap_congr ih)

end Tree

/-! ## Graphs -/

/-- The statement without the operands that are left out. -/
def Stmt.trim (T : Trim) (s : Stmt) : Stmt :=
  { s with tree := s.tree.trim T }

namespace Graph

/-- The graph without the operands that are left out. -/
def trim (T : Trim) (g : Graph) : Graph :=
  { g with
    stmts := g.stmts.map (Stmt.trim T)
    parents := g.parents.map (Option.map (Tree.trim T))
    twins := g.twins.map (List.map (Tree.trim T)) }

variable (T : Trim) (g : Graph)

theorem trim_stmt_default : (default : Stmt).trim T = default :=
  congrArg (fun tree => ({ tree } : Stmt)) (Tree.trim_default T)

@[simp]
theorem block_trim (b : BlockId) : (g.trim T).block b = g.block b :=
  rfl

@[simp]
theorem blockCount_trim : (g.trim T).blockCount = g.blockCount :=
  rfl

@[simp]
theorem stmtCount_trim : (g.trim T).stmtCount = g.stmtCount :=
  rfl

@[simp]
theorem stmt_trim (s : StmtId) : (g.trim T).stmt s = (g.stmt s).trim T :=
  Table.get_map (trim_stmt_default T) g.stmts s

@[simp]
theorem parent_trim (t : Tree) : (g.trim T).parent (t.trim T) = (g.parent t).map (Tree.trim T) := by
  rw [parent, parent, Tree.id_trim]
  exact Table.get_map (f := Option.map (Tree.trim T)) rfl g.parents t.id

theorem sharers_trim (t : Tree) :
    (g.trim T).sharers (t.trim T) = (g.sharers t).map (Tree.trim T) := by
  rw [sharers, sharers, Tree.id_trim, List.map_cons]
  exact congrArg _ (Table.get_map (f := List.map (Tree.trim T)) rfl g.twins t.id)

/-! ### Chains -/

theorem walkBlocks_trim (fuel : Nat) (b : Option BlockId) :
    (g.trim T).walkBlocks fuel b = g.walkBlocks fuel b := by
  induction fuel generalizing b with
  | zero => rfl
  | succ fuel ih => cases b <;> simp [walkBlocks, ih]

theorem walkStmts_trim (fuel : Nat) (s : Option StmtId) :
    (g.trim T).walkStmts fuel s = g.walkStmts fuel s := by
  induction fuel generalizing s with
  | zero => rfl
  | succ fuel ih => cases s <;> simp [walkStmts, ih, Stmt.trim]

@[simp]
theorem blocksFrom_trim (b : BlockId) : (g.trim T).blocksFrom b = g.blocksFrom b :=
  g.walkBlocks_trim T _ _

@[simp]
theorem stmtsOf_trim (b : BlockId) : (g.trim T).stmtsOf b = g.stmtsOf b :=
  g.walkStmts_trim T _ _

theorem treesOf_trim (b : BlockId) : (g.trim T).treesOf b = (g.treesOf b).map (Tree.trim T) := by
  simp [treesOf, Stmt.trim, Tree.postorder_trim, List.map_flatMap]

theorem treesFrom_trim (b : BlockId) :
    (g.trim T).treesFrom b = (g.treesFrom b).map (Tree.trim T) := by
  rw [treesFrom, treesFrom, blocksFrom_trim, List.map_flatMap]
  exact List.flatMap_congr fun c _ => g.treesOf_trim T c

theorem terminator_trim (b : BlockId) :
    (g.trim T).terminator b = (g.terminator b).map (Tree.trim T) := by
  simp only [terminator, block_trim, stmt_trim]
  cases (g.block b).last <;> rfl

/-! ### Construction -/

theorem addBlock_trim (b : Block) : (g.trim T).addBlock b = (g.addBlock b).trim T :=
  rfl

theorem modifyBlock_trim (b : BlockId) (f : Block → Block) :
    (g.trim T).modifyBlock b f = (g.modifyBlock b f).trim T :=
  rfl

theorem modifyBlock?_trim (b : Option BlockId) (f : Block → Block) :
    (g.trim T).modifyBlock? b f = (g.modifyBlock? b f).trim T := by
  cases b <;> rfl

theorem modifyStmt_trim (s : StmtId) {f : Stmt → Stmt}
    (hf : ∀ st, (f st).trim T = f (st.trim T)) :
    (g.trim T).modifyStmt s f = (g.modifyStmt s f).trim T := by
  simp only [modifyStmt, trim, Table.map_modify (trim_stmt_default T) g.stmts s hf]

theorem modifyStmt?_trim (s : Option StmtId) {f : Stmt → Stmt}
    (hf : ∀ st, (f st).trim T = f (st.trim T)) :
    (g.trim T).modifyStmt? s f = (g.modifyStmt? s f).trim T := by
  cases s with
  | none => rfl
  | some s => exact g.modifyStmt_trim T s hf

theorem addStmt_trim (st : Stmt) : (g.trim T).addStmt (st.trim T) = (g.addStmt st).trim T := by
  simp only [addStmt, trim, Table.map_set (trim_stmt_default T)]

theorem newEdge_trim (b : BlockId) :
    (g.trim T).newEdge b = ((g.newEdge b).1, (g.newEdge b).2.trim T) :=
  rfl

theorem newTree_trim (kind : TreeKind) (os : List Operand) (b : BlockId) (ts : List Tree) :
    (g.trim T).newTree kind (T.operands kind os) b (ts.map (Tree.trim T)) =
      ((g.newTree kind os b ts).1.trim T, (g.newTree kind os b ts).2.trim T) := by
  have hparents : ∀ (t : Tree) (ps : Table (Option Tree)),
      (ts.map (Tree.trim T)).foldl (fun ps u => ps.set u.id (some (t.trim T)))
          (ps.map (Option.map (Tree.trim T))) =
        (ts.foldl (fun ps u => ps.set u.id (some t)) ps).map (Option.map (Tree.trim T)) := by
    intro t
    induction ts with
    | nil => exact fun _ => rfl
    | cons u ts ih =>
        intro ps
        rw [List.map_cons, List.foldl_cons, List.foldl_cons, ← ih, Tree.id_trim,
          Table.map_set (f := Option.map (Tree.trim T)) rfl]
        rfl
  have htree : (Tree.node g.treeCount kind os b ts).trim T =
      .node g.treeCount kind (T.operands kind os) b (ts.map (Tree.trim T)) := by
    rw [Tree.trim, Tree.trims_eq_map]
  simp only [newTree, trim, ← hparents, htree]

theorem append_trim (b : BlockId) (offset : Int) (t : Tree) :
    (g.trim T).append b offset (t.trim T) = (g.append b offset t).trim T := by
  have hstmt : ∀ last, Stmt.trim T { offset, prev := last, tree := t } =
      { offset, prev := last, tree := t.trim T } := fun _ => rfl
  simp only [append, block_trim, stmtCount_trim, ← hstmt, addStmt_trim]
  cases (g.block b).last with
  | none => rfl
  | some l =>
      have hlink := (g.addStmt { offset, prev := some l, tree := t }).modifyStmt_trim T l
        (f := fun st => { st with next := some g.stmtCount }) fun _ => rfl
      simp only [hlink, modifyBlock_trim]

theorem insertBehind_trim (b : BlockId) (offset : Int) :
    (g.trim T).insertBehind b offset = (g.insertBehind b offset).trim T := by
  simp only [insertBehind, block_trim, blockCount_trim, addBlock_trim, modifyBlock_trim,
    modifyBlock?_trim]

theorem split_trim (b : BlockId) (s : StmtId) (offset : Int) :
    (g.trim T).split b s offset = (g.split b s offset).trim T := by
  have hprev : ∀ r, ((g.stmt r).trim T).prev = (g.stmt r).prev := fun _ => rfl
  have hoffset : ∀ r, ((g.stmt r).trim T).offset = (g.stmt r).offset := fun _ => rfl
  have hoperands : ∀ e : Operand, [e] = T.operands .jmp [e] := by
    cases T <;> exact fun _ => rfl
  have hjump : ∀ (g : Graph) (e : Operand), (g.trim T).newTree .jmp [e] b [] =
      ((g.newTree .jmp [e] b []).1.trim T, (g.newTree .jmp [e] b []).2.trim T) := by
    intro g e
    have h := g.newTree_trim T .jmp [e] b []
    rwa [← hoperands, List.map_nil] at h
  have hstmt : ∀ (offset : Int) prev (t : Tree), { offset, prev, tree := t.trim T } =
      Stmt.trim T { offset, prev, tree := t } := fun _ _ _ => rfl
  have hnext : ∀ (g : Graph) r (next : Option StmtId),
      (g.trim T).modifyStmt? r (fun st => { st with next }) =
        (g.modifyStmt? r fun st => { st with next }).trim T :=
    fun g r _ => g.modifyStmt?_trim T r fun _ => rfl
  have hfirst : ∀ (g : Graph), (g.trim T).modifyStmt s (fun st => { st with prev := none }) =
      (g.modifyStmt s fun st => { st with prev := none }).trim T :=
    fun g => g.modifyStmt_trim T s fun _ => rfl
  simp only [split, block_trim, stmt_trim, hprev, hoffset, blockCount_trim, stmtCount_trim,
    insertBehind_trim, modifyBlock_trim, newEdge_trim, hjump, hstmt, addStmt_trim, hnext, hfirst]

/-! ### Looking up blocks -/

theorem landing_trim (offset : Int) (b : BlockId) (rest : List BlockId) :
    (g.trim T).landing offset b rest = g.landing offset b rest := by
  induction rest generalizing b with
  | nil => rfl
  | cons c rest ih => simp only [landing, block_trim, ih]

theorem locate_trim (first : BlockId) (offset : Int) :
    (g.trim T).locate first offset = g.locate first offset := by
  have hoffset : ∀ r, ((g.stmt r).trim T).offset = (g.stmt r).offset := fun _ => rfl
  simp only [locate, blocksFrom_trim, landing_trim, block_trim, stmtsOf_trim, stmt_trim, hoffset]

/-- Where an offset leads does not depend on the operands. -/
theorem blockAt_mirrors (first : BlockId) (offset : Int) :
    Mirrors (trim T) (blockAt first offset) (blockAt first offset) g := by
  rw [Mirrors, blockAt_apply, blockAt_apply, locate_trim]
  cases g.locate first offset with
  | error fault => rfl
  | ok place =>
      cases place with
      | existing b => rfl
      | behind b => simp only [mapState, blockCount_trim, insertBehind_trim]
      | within b s => simp only [mapState, blockCount_trim, split_trim]

end Graph

/-! ## Reading a program -/

/-- A composed result is mapped part by part. -/
theorem bind_map_eq
    {α α' β β' : Type} {x : Except Fault α} {f : α → α'} {h : β → β'}
    {k : α → Except Fault β} {k' : α' → Except Fault β'}
    (hk : ∀ a, k' (f a) = (k a).map h) :
    (x.map f >>= k') = (x >>= k).map h := by
  cases x with
  | error fault => rfl
  | ok a => exact hk a

namespace Importer

/-- The reader of the program without the operands that are left out. -/
def trim (T : Trim) (s : Importer) : Importer :=
  { s with
    graph := s.graph.trim T
    stack := s.stack.map (Tree.trim T)
    stores := s.stores.map fun store => (store.1, store.2.trim T) }

variable (T : Trim) (s : Importer)

theorem fold_trim (n : Nat) (kind : TreeKind) (os : List Operand) :
    (s.trim T).fold n kind (T.operands kind os) = (s.fold n kind os).map (trim T) := by
  have htree := s.graph.newTree_trim T kind os s.block (s.stack.take n).reverse
  rw [List.map_reverse, List.map_take] at htree
  simp only [fold, trim, List.length_map, htree]
  split
  · rfl
  · simp [Except.map, trim]

/-- A tree that keeps all its operands. -/
theorem fold_trim_of_operands_eq {n : Nat} {kind : TreeKind} {os : List Operand}
    (hos : T.operands kind os = os) :
    (s.trim T).fold n kind os = (s.fold n kind os).map (trim T) := by
  have h := s.fold_trim T n kind os
  rwa [hos] at h

theorem finish_trim (i : Nat) : (s.trim T).finish i = (s.finish i).trim T := by
  obtain ⟨graph, first, block, stack, start, stores⟩ := s
  cases stack with
  | nil => rfl
  | cons t rest => simp only [finish, trim, List.map_cons, Graph.append_trim]

theorem requireEmpty_trim : (s.trim T).requireEmpty = s.requireEmpty.map (trim T) := by
  simp only [requireEmpty, trim, List.isEmpty_map]
  split <;> rfl

theorem target_trim (offset : Int) :
    (s.trim T).target offset = (s.target offset).map fun r => (r.1, r.2.trim T) := by
  have hblock : Graph.blockAt s.first offset (s.graph.trim T) =
      mapState (Graph.trim T) (Graph.blockAt s.first offset s.graph) :=
    s.graph.blockAt_mirrors T s.first offset
  simp only [target, trim, hblock]
  cases Graph.blockAt s.first offset s.graph <;> rfl

theorem edgeTo_trim (os : List Literal) (k : Nat) :
    (s.trim T).edgeTo os k = (s.edgeTo os k).map fun r => (r.1, r.2.trim T) := by
  simp only [edgeTo]
  split
  · rfl
  · rfl
  · exact s.target_trim T _

theorem leave_trim (i : Nat) (isLast : Bool) :
    (s.trim T).leave i isLast = (s.leave i isLast).map (trim T) := by
  simp only [leave, target_trim]
  split
  · rfl
  · exact bind_map_eq fun _ => rfl

theorem newEdge_trim (b : BlockId) :
    (s.trim T).newEdge b = ((s.newEdge b).1, (s.newEdge b).2.trim T) :=
  rfl

theorem proceed_trim (isLast : Bool) :
    (s.trim T).proceed isLast = (s.proceed isLast).map (trim T) := by
  simp only [proceed]
  split <;> rfl

theorem noteStore_trim (i : Nat) : (s.trim T).noteStore i = (s.noteStore i).trim T := by
  obtain ⟨graph, first, block, stack, start, stores⟩ := s
  cases stack with
  | nil => rfl
  | cons t rest => simp [noteStore, trim]

/-- Reading an instruction commutes with leaving operands out. -/
theorem step_trim (i : Nat) (isLast : Bool) (instr : Instr) :
    (s.trim T).step i isLast (instr.trim T) = (s.step i isLast instr).map (trim T) := by
  obtain ⟨opcode, os⟩ := instr
  cases opcode with
  | ldLocal =>
      simp only [step, Instr.trim]
      rw [fold_trim_of_operands_eq T s (by cases T <;> rfl)]
      exact bind_map_eq fun s => s.proceed_trim T isLast
  | stLocal =>
      simp only [step, Instr.trim, ← Trim.operands_map, fold_trim]
      refine bind_map_eq fun s => ?_
      rw [noteStore_trim, finish_trim, requireEmpty_trim]
      exact bind_map_eq fun s => s.proceed_trim T isLast
  | push =>
      simp only [step, Instr.trim, ← Trim.operands_map, fold_trim]
      exact bind_map_eq fun s => s.proceed_trim T isLast
  | pop =>
      simp only [step, Instr.trim]
      rw [fold_trim_of_operands_eq T s (T.operands_nil _)]
      refine bind_map_eq fun s => ?_
      rw [finish_trim, requireEmpty_trim]
      exact bind_map_eq fun s => s.proceed_trim T isLast
  | binary op =>
      simp only [step, Instr.trim]
      rw [fold_trim_of_operands_eq T s (by cases T <;> rfl)]
      exact bind_map_eq fun s => s.proceed_trim T isLast
  | jmp =>
      simp only [step, Instr.trim, edgeTo_trim]
      refine bind_map_eq fun r => ?_
      simp only [newEdge_trim]
      rw [fold_trim_of_operands_eq T _ (by cases T <;> rfl)]
      refine bind_map_eq fun s => ?_
      rw [finish_trim, requireEmpty_trim]
      exact bind_map_eq fun s => s.leave_trim T i isLast
  | branch =>
      simp only [step, Instr.trim, edgeTo_trim]
      refine bind_map_eq fun r => ?_
      simp only [edgeTo_trim]
      refine bind_map_eq fun r => ?_
      simp only [newEdge_trim]
      rw [fold_trim_of_operands_eq T _ (by cases T <;> rfl)]
      refine bind_map_eq fun s => ?_
      rw [finish_trim, requireEmpty_trim]
      exact bind_map_eq fun s => s.leave_trim T i isLast
  | ret =>
      simp only [step, Instr.trim]
      rw [fold_trim_of_operands_eq T s (T.operands_nil _)]
      refine bind_map_eq fun s => ?_
      rw [finish_trim]
      exact s.finish i |>.leave_trim T i isLast
  | other name => exact s.proceed_trim T isLast

/-- Reading instructions commutes with leaving operands out. -/
theorem run_trim (i : Nat) (instrs : List Instr) :
    (s.trim T).run i (instrs.map (Instr.trim T)) = (s.run i instrs).map (trim T) := by
  induction instrs generalizing i s with
  | nil => rfl
  | cons instr rest ih =>
      simp only [List.map_cons, run, List.isEmpty_map, step_trim]
      exact bind_map_eq fun s => ih s (i + 1)

end Importer

/-! ## Notes -/

/-- The owner of a value without the operands that are left out. -/
def Owner.trim (T : Trim) : Owner → Owner
  | .slot n => .slot n
  | .temp t => .temp (t.trim T)

@[simp]
theorem Owner.isTemp_trim (T : Trim) (o : Owner) : (o.trim T).isTemp = o.isTemp := by
  cases o <;> rfl

@[simp]
theorem Owner.isResultOf_trim (T : Trim) (o : Owner) (t : Tree) :
    (o.trim T).isResultOf (t.trim T) = o.isResultOf t := by
  cases o <;> simp [trim, isResultOf]

@[simp]
theorem Owner.sameSlot_trim (T : Trim) (o o' : Owner) :
    (o.trim T).sameSlot (o'.trim T) = o.sameSlot o' := by
  cases o <;> cases o' <;> rfl

/-- The interval without the operands that are left out. -/
def Interval.trim (T : Trim) (iv : Interval) : Interval :=
  { iv with
    owner := iv.owner.trim T
    uses := iv.uses.map (Tree.trim T)
    writes := iv.writes.map (Tree.trim T) }

@[simp]
theorem Interval.owner_trim (T : Trim) (iv : Interval) : (iv.trim T).owner = iv.owner.trim T :=
  rfl

@[simp]
theorem Interval.lastRead_trim (T : Trim) (iv : Interval) : (iv.trim T).lastRead = iv.lastRead :=
  rfl

@[simp]
theorem Interval.liveIn_trim (T : Trim) (iv : Interval) : (iv.trim T).liveIn = iv.liveIn :=
  rfl

namespace Notes

/-- The notes without the operands that are left out. -/
def trim (T : Trim) (n : Notes) : Notes :=
  { n with intervals := n.intervals.map (Interval.trim T) }

variable (T : Trim) (n : Notes)

@[simp]
theorem tree_trim (t : Tree) : (n.trim T).tree (t.trim T) = n.tree t :=
  congrArg n.trees.get (t.id_trim T)

@[simp]
theorem index_trim (t : Tree) : (n.trim T).index (t.trim T) = n.index t :=
  congrArg TreeNote.index (n.tree_trim T t)

@[simp]
theorem reg_trim (t : Tree) : (n.trim T).reg (t.trim T) = n.reg t :=
  congrArg TreeNote.reg (n.tree_trim T t)

@[simp]
theorem block_trim (b : BlockId) : (n.trim T).block b = n.block b :=
  rfl

@[simp]
theorem edge_trim (e : EdgeId) : (n.trim T).edge e = n.edge e :=
  rfl

@[simp]
theorem interval_trim (i : IntervalId) : (n.trim T).interval i = (n.interval i).trim T :=
  Table.get_map (f := Interval.trim T) rfl n.intervals i

theorem operands_trim (t : Tree) :
    (n.trim T).operands (t.trim T) =
      T.operands t.kind t.operands ++ (n.tree t).stored.map fun r => .literal (.num r) := by
  rw [operands, tree_trim, Tree.operands_trim]

theorem modifyTree_trim (t : Tree) (f : TreeNote → TreeNote) :
    (n.trim T).modifyTree (t.trim T) f = (n.modifyTree t f).trim T := by
  rw [modifyTree, modifyTree, Tree.id_trim]
  rfl

theorem modifyInterval_trim (i : IntervalId) {f f' : Interval → Interval}
    (hf : ∀ iv, (f iv).trim T = f' (iv.trim T)) :
    (n.trim T).modifyInterval i f' = (n.modifyInterval i f).trim T := by
  simp only [modifyInterval, trim, Table.map_modify (f := Interval.trim T) rfl n.intervals i hf]

theorem addInterval_trim (iv : Interval) :
    (n.trim T).addInterval (iv.trim T) = (n.addInterval iv).trim T := by
  simp only [addInterval, trim, Table.map_set (f := Interval.trim T) rfl]

theorem nextUse_trim (i : IntervalId) (pos : Int) :
    (n.trim T).nextUse i pos = (n.nextUse i pos).map (Tree.trim T) := by
  simp only [nextUse, interval_trim, Interval.trim, List.find?_map]
  congr 2
  funext t
  simp

theorem nextWrite_trim (i : IntervalId) (pos : Int) :
    (n.trim T).nextWrite i pos = (n.nextWrite i pos).map (Tree.trim T) := by
  simp only [nextWrite, interval_trim, Interval.trim, List.find?_map]
  congr 2
  funext t
  simp

theorem number_trim (start : Nat) (ts : List Tree) :
    (n.trim T).number start (ts.map (Tree.trim T)) = (n.number start ts).trim T := by
  induction ts generalizing n start with
  | nil => rfl
  | cons t ts ih => rw [List.map_cons, number, number, modifyTree_trim, ih]

end Notes

/-! ## Predecessors -/

/-- A tree that is no constant, and has no edges if it is a store. -/
def Tree.EndsBlock (t : Tree) : Prop :=
  t.kind ≠ .const ∧ (t.kind = .stLocal → t.edges = [])

/-- The edges with which a block ends are not left out, nor is anything that stands in front
of them. -/
theorem eachEdge_trim {σ : Type} (T : Trim) (visit : EdgeId → BlockId → EStateM Fault σ Unit)
    {t : Tree} (ht : t.EndsBlock) (rest : List Operand) :
    eachEdge visit (T.operands t.kind t.operands ++ rest) =
      eachEdge visit (t.operands ++ rest) := by
  by_cases hstore : t.kind = .stLocal
  · have hedges := ht.2 hstore
    rw [Tree.edges] at hedges
    rw [hstore]
    cases T with
    | constants => rfl
    | stores =>
        cases hos : t.operands with
        | nil => rfl
        | cons o os =>
            cases o with
            | edge e target => simp [hos, Operand.edge?] at hedges
            | literal l => rfl
            | operator op => rfl
  · rw [T.operands_eq ht.1 hstore]

theorem Ir.eachExit_mirrors {σ : Type} {f : σ → σ} {P : σ → Prop}
    {visit visit' : EdgeId → BlockId → EStateM Fault σ Unit} (T : Trim) (g : Graph) (n : Notes)
    {b : BlockId} (hb : ∀ t, g.terminator b = .ok t → t.EndsBlock)
    (hvisit : ∀ e target s, P s → Mirrors f (visit e target) (visit' e target) s)
    (hP : ∀ e target s s', P s → visit e target s = .ok () s' → P s') {s : σ} (hs : P s) :
    Mirrors f (eachExit g n b visit) (eachExit (g.trim T) (n.trim T) b visit') s := by
  simp only [eachExit, Graph.terminator_trim]
  cases hlast : g.terminator b with
  | error fault => exact mirrors_throw fault s
  | ok t =>
      have hoperands : eachEdge visit' ((n.trim T).operands (t.trim T)) =
          eachEdge visit' (n.operands t) := by
        rw [Notes.operands_trim, Notes.operands]
        exact eachEdge_trim T visit' (hb t hlast) _
      simp only [Except.map, hoperands]
      exact eachEdge_mirrors hvisit hP _ hs

theorem Ir.notePredecessors_mirrors (T : Trim) (g : Graph)
    (hg : ∀ b t, g.terminator b = .ok t → t.EndsBlock) (bs : List BlockId) (n : Notes) :
    Mirrors (Notes.trim T) (notePredecessors g bs) (notePredecessors (g.trim T) bs) n := by
  induction bs generalizing n with
  | nil => exact mirrors_pure () n
  | cons b bs ih =>
      refine Mirrors.bind ?_ fun _ n₁ _ => ih n₁
      refine mirrors_get_bind (eachExit_mirrors (P := fun _ => True) T g n (hg b) ?_ ?_ trivial)
      · exact fun e target n _ => mirrors_modify rfl
      · exact fun _ _ _ _ _ _ => trivial

/-! ## Programs that were read -/

/-- What was read, without the operands that are left out. -/
def Imported.trim (T : Trim) (m : Imported) : Imported where
  graph := m.graph.trim T
  notes := m.notes.trim T
  ir := m.ir
  stores := m.stores.map fun store => (store.1, store.2.trim T)

theorem Importer.Read.endsBlock {code : List Instr} {s : Importer} (hread : s.Read code)
    (hs : s.WellFormed) {b : BlockId} {t : Tree} (ht : s.graph.terminator b = .ok t) :
    t.EndsBlock := by
  rw [Graph.terminator] at ht
  split at ht
  · next r hlast =>
      injection ht with ht
      subst ht
      have hmem := Graph.mem_statementTrees (hs.linked.last_lt hlast)
      constructor
      · intro hconst
        have hvalue := hs.planted.root_not_isValue _ hmem
        rw [hconst] at hvalue
        cases hvalue
      · intro hstore
        rcases (hread.directed _ (Graph.mem_allTrees_of_root (List.mem_append_left _ hmem))).2 with
          hkind | hkind | hedges
        · rw [hstore] at hkind
          cases hkind
        · rw [hstore] at hkind
          cases hkind
        · exact hedges
  · cases ht

/-- Reading a program commutes with leaving operands out. -/
theorem Program.import?_trim (T : Trim) (p : Program) :
    (p.trim T).import? = p.import?.map (Imported.trim T) := by
  have hnotes : ({} : Notes).trim T = {} := by simp [Notes.trim, Table.map]
  have hrun := Importer.run_trim T .fresh 0 p.instrs
  have hstart : Importer.fresh.trim T = .fresh := by
    simp [Importer.fresh, Importer.trim, Graph.trim, Graph.newChain, Graph.addBlock, Table.map]
  rw [hstart] at hrun
  change (Importer.run 0 (p.instrs.map (Instr.trim T)) .fresh >>= _) =
    (Importer.run 0 p.instrs .fresh >>= _).map (Imported.trim T)
  rw [hrun]
  cases hs : Importer.run 0 p.instrs .fresh with
  | error fault => rfl
  | ok s =>
      have hread := (Importer.Read.start p.instrs).run rfl hs
      have hpred := Ir.notePredecessors_mirrors T s.graph
        (fun b t ht => hread.endsBlock (Importer.WellFormed.start.run hs) ht) (s.graph.blocksFrom 0)
        {}
      rw [Mirrors, hnotes] at hpred
      simp only [Except.map, bind, Except.bind, Ir.recomputePredecessors, Ir.blocks, Importer.trim,
        Graph.blocksFrom_trim, hpred]
      cases Ir.notePredecessors s.graph (s.graph.blocksFrom 0) {} with
      | error fault n => rfl
      | ok _ n =>
          have hstores : (s.stores.map Prod.fst).Nodup :=
            Importer.run_stores hs ▸ nodup_storeOffsets 0 p.instrs
          have hshare : s.graph.shareStores id [] s.stores = s.graph :=
            shareStores_eq_self hstores _
          have htrimmed : (s.graph.trim T).shareStores id []
              (s.stores.map fun store => (store.1, store.2.trim T)) = s.graph.trim T :=
            shareStores_eq_self (by simpa [Function.comp_def] using hstores) _
          simp only [mapState, hshare, htrimmed, List.nil_append, Imported.trim, Ir.reindex,
            Ir.trees, Graph.treesFrom_trim, Notes.number_trim, List.length_map, trim]

end LinearScan
