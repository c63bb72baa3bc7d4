import LinearScan.Proofs.Mirroring
import LinearScan.Proofs.Safekeeping

/-!
# The whole scan without operands

Outside the scan of a tree nothing is compared: the survey, the starts and ends of blocks and
the agreement along edges do the same whatever is left out.  So if the trees are scanned alike,
the program without these operands is compiled as the program is.
-/

namespace LinearScan

open Allocator

variable {T : Trim} {g : Graph} {s : Allocator}

/-! ## The lives of the local variables -/

namespace Notes

theorem addWrite_trim (n : Notes) (i : IntervalId) (t : Tree) :
    (n.trim T).addWrite i (t.trim T) = (n.addWrite i t).trim T := by
  refine n.modifyInterval_trim T i fun iv => ?_
  simp [Interval.trim]

theorem addRead_trim (n : Notes) (i : IntervalId) (t : Tree) (taken : Nat) :
    (n.trim T).addRead i (t.trim T) taken = (n.addRead i t taken).trim T := by
  refine n.modifyInterval_trim T i fun iv => ?_
  rw [Interval.trim, List.map_append]
  rfl

theorem extendReads_trim (n : Notes) (last : Nat) (is : List IntervalId) :
    (n.trim T).extendReads last is = (n.extendReads last is).trim T := by
  induction is generalizing n with
  | nil => rfl
  | cons i is ih =>
      have hfirst : (n.trim T).modifyInterval i (fun iv => { iv with lastRead := last }) =
          (n.modifyInterval i fun iv => { iv with lastRead := last }).trim T :=
        n.modifyInterval_trim T i fun _ => rfl
      rw [extendReads, List.foldl_cons, hfirst]
      exact ih _

end Notes

namespace Alloc

theorem createSlots_mirrors (ir : Ir) (k count : Nat) (s : Allocator) :
    Mirrors (Allocator.trim T) (createSlots ir k count) (createSlots ir k count) s := by
  induction count generalizing k s with
  | zero => exact mirrors_pure () s
  | succ count ih =>
      refine Mirrors.bind (mirrors_modify ?_) fun _ s₁ _ => ih (k + 1) s₁
      exact congrArg (fun n =>
          { s.trim T with notes := n, slots := s.slots ++ [s.notes.intervalCount] })
        (s.notes.addInterval_trim T { owner := .slot k, firstWrite := ir.count, lastRead := -1 })

theorem surveyTree_mirrors (t : Tree) (s : Allocator) :
    Mirrors (Allocator.trim T) (surveyTree g t) (surveyTree (g.trim T) (t.trim T)) s := by
  rw [surveyTree, surveyTree, Tree.kind_trim]
  cases hkind : t.kind with
  | stLocal =>
      refine mirrors_get_bind ?_
      rw [slotOf_trim T s (by simp [hkind])]
      refine (ofExcept_mirrors _ s).bind fun i s₁ _ => ?_
      exact modifyNotes_mirrors (s₁.notes.addWrite_trim i t)
  | ldLocal =>
      refine mirrors_get_bind ?_
      rw [slotOf_trim T s (by simp [hkind])]
      refine (ofExcept_mirrors _ s).bind fun i s₁ _ => ?_
      rw [Graph.parent_trim]
      cases g.parent t with
      | none => exact mirrors_throw _ s₁
      | some p =>
          refine modifyNotes_mirrors ?_
          rw [Notes.index_trim]
          exact s₁.notes.addRead_trim i t _
  | _ => exact mirrors_pure () s

theorem surveyTrees_mirrors (ts : List Tree) (s : Allocator) :
    Mirrors (Allocator.trim T) (surveyTrees g ts)
      (surveyTrees (g.trim T) (ts.map (Tree.trim T))) s := by
  induction ts generalizing s with
  | nil => exact mirrors_pure () s
  | cons t ts ih => exact (surveyTree_mirrors t s).bind fun _ s₁ _ => ih s₁

theorem surveyBlocks_mirrors (ir : Ir) (bs : List BlockId) (s : Allocator) :
    Mirrors (Allocator.trim T) (surveyBlocks g ir bs) (surveyBlocks (g.trim T) ir bs) s := by
  induction bs generalizing s with
  | nil => exact mirrors_pure () s
  | cons b bs ih =>
      rw [surveyBlocks, surveyBlocks, Graph.treesOf_trim]
      refine (surveyTrees_mirrors (g.treesOf b) s).bind fun _ s₁ _ => ?_
      refine Mirrors.bind (mirrors_modify ?_) fun _ s₂ _ => ih s₂
      exact congrArg (fun n => { s₁.trim T with notes := n })
        (s₁.notes.extendReads_trim ir.count s₁.slots)

theorem survey_mirrors (ir : Ir) (s : Allocator) :
    Mirrors (Allocator.trim T) (survey g ir) (survey (g.trim T) ir) s := by
  have hblocks : ir.blocks (g.trim T) = ir.blocks g := g.blocksFrom_trim T ir.first
  rw [survey, survey, hblocks]
  refine Mirrors.bind (mirrors_modify rfl) fun _ s₁ _ => ?_
  refine (createSlots_mirrors ir 0 _ s₁).bind fun _ s₂ _ => ?_
  exact surveyBlocks_mirrors ir (ir.blocks g) s₂

/-! ## Blocks -/

theorem forget_mirrors (is : List IntervalId) (s : Allocator) :
    Mirrors (Allocator.trim T) (forget is) (forget is) s := by
  induction is generalizing s with
  | nil => exact mirrors_pure () s
  | cons i is ih => exact (setLiveIn_mirrors i none s).bind fun _ s₁ _ => ih s₁

theorem clear_mirrors (s : Allocator) : Mirrors (Allocator.trim T) clear clear s := by
  refine Mirrors.bind (mirrors_modify rfl) fun _ s₁ _ => mirrors_get_bind ?_
  exact (forget_mirrors s₁.active s₁).bind fun _ s₂ _ => mirrors_modify rfl

theorem seat_mirrors (cs : List Crossing) (s : Allocator) :
    Mirrors (Allocator.trim T) (seat cs) (seat cs) s := by
  induction cs generalizing s with
  | nil => exact mirrors_pure () s
  | cons c cs ih =>
      refine (occupy_mirrors _ _ s).bind fun _ s₁ _ => ?_
      refine (setLiveIn_mirrors _ _ s₁).bind fun _ s₂ _ => ?_
      exact (pushActive_mirrors _ s₂).bind fun _ s₃ _ => ih s₃

theorem firstExit_trim (n : Notes) (bs : List BlockId) :
    (n.trim T).firstExit bs = n.firstExit bs := by
  induction bs with
  | nil => rfl
  | cons b bs ih => simp only [Notes.firstExit, Notes.block_trim, ih]

theorem enter_mirrors (b : BlockId) (s : Allocator) :
    Mirrors (Allocator.trim T) (enter b) (enter b) s := by
  refine Mirrors.bind (mirrors_modify rfl) fun _ s₁ _ => ?_
  refine (clear_mirrors s₁).bind fun _ s₂ _ => mirrors_get_bind ?_
  simp only [notes_trim, Notes.block_trim, firstExit_trim]
  cases (s₂.notes.block b).predecessors with
  | nil => exact mirrors_pure () s₂
  | cons q predecessors =>
      dsimp only
      cases s₂.notes.firstExit (q :: predecessors) with
      | none => exact mirrors_throw _ s₂
      | some crossings =>
          exact (seat_mirrors crossings.members s₂).bind fun _ s₃ _ => modifyNotes_mirrors rfl

theorem dropTemps_mirrors (is : List IntervalId) (s : Allocator) :
    Mirrors (Allocator.trim T) (dropTemps is) (dropTemps is) s := by
  induction is generalizing s with
  | nil => exact mirrors_pure [] s
  | cons i is ih =>
      refine interval_bind_mirrors ?_
      rw [Interval.owner_trim, Owner.isTemp_trim, Interval.liveIn_trim]
      refine mirrors_ite (fun _ => ?_) fun _ => ?_
      · refine (occupy_mirrors _ none s).bind fun _ s₁ _ => ?_
        exact (setLiveIn_mirrors i none s₁).bind fun _ s₂ _ => ih s₂
      · exact (ih s).bind fun _ s₁ _ => mirrors_pure _ s₁

theorem depart_mirrors (b : BlockId) (s : Allocator) :
    Mirrors (Allocator.trim T) (depart b) (depart b) s := by
  refine mirrors_get_bind ((dropTemps_mirrors s.active s).bind fun kept s₁ _ => ?_)
  refine mirrors_modify ?_
  simp only [interval_trim, Interval.liveIn_trim]
  rfl

/-- Trees are scanned as long as `P` holds of those that are left. -/
theorem scanTrees_mirrors {P : List Tree → Allocator → Prop}
    (hmirror : ∀ t ts s, P (t :: ts) s →
      Mirrors (Allocator.trim T) (scanTree g t) (scanTree (g.trim T) (t.trim T)) s)
    (hstep : ∀ t ts s s₁, P (t :: ts) s → scanTree g t s = .ok () s₁ → P ts s₁)
    {ts : List Tree} (hs : P ts s) :
    Mirrors (Allocator.trim T) (scanTrees g ts) (scanTrees (g.trim T) (ts.map (Tree.trim T)))
      s := by
  induction ts generalizing s with
  | nil => exact mirrors_pure () s
  | cons t ts ih =>
      exact (hmirror t ts s hs).bind fun _ s₁ htree => ih (hstep t ts s s₁ hs htree)

/-- Blocks are scanned as long as `P` holds of those that have been scanned. -/
theorem scanBlocks_mirrors {P : List BlockId → Allocator → Prop} {pending : List Tree}
    (hg : g.Formed pending) {s₀ : Allocator}
    (hmirror : ∀ scanned b bs s s₁, g.blocksFrom 0 = scanned ++ b :: bs →
      HasScanned g s₀ scanned s → P scanned s → enter b s = .ok () s₁ →
      Mirrors (Allocator.trim T) (scanTrees g (g.treesOf b))
        (scanTrees (g.trim T) ((g.treesOf b).map (Tree.trim T))) s₁)
    (hstep : ∀ scanned b bs s s₁, g.blocksFrom 0 = scanned ++ b :: bs →
      HasScanned g s₀ scanned s → P scanned s → scanBlock g b s = .ok () s₁ → P (scanned ++ [b]) s₁)
    {scanned bs : List BlockId} (hsplit : g.blocksFrom 0 = scanned ++ bs)
    (hhas : HasScanned g s₀ scanned s) (hs : P scanned s) :
    Mirrors (Allocator.trim T) (scanBlocks g bs) (scanBlocks (g.trim T) bs) s := by
  induction bs generalizing scanned s with
  | nil => exact mirrors_pure () s
  | cons b bs ih =>
      have hb : b ∉ scanned := hg.not_mem_of_blocksFrom_eq hsplit
      have hblock :
          Mirrors (Allocator.trim T) (scanBlock g b) (scanBlock (g.trim T) b) s := by
        rw [scanBlock, scanBlock, Graph.treesOf_trim]
        refine (enter_mirrors b s).bind fun _ s₁ henter => ?_
        exact (hmirror scanned b bs s s₁ hsplit hhas hs henter).bind
          fun _ s₂ _ => depart_mirrors b s₂
      exact hblock.bind fun _ s₁ hscan => ih (by simp [hsplit])
        (scanBlock_hasScanned hg hhas hb hscan) (hstep scanned b bs s s₁ hsplit hhas hs hscan)

end Alloc

/-! ## Whose temporaries there are -/

/-- The temporaries are values of trees for which `P` holds. -/
def Allocator.Produced (P : Tree → Prop) (s : Allocator) : Prop :=
  ∀ (i : Nat) u, i < s.notes.intervalCount → (s.interval i).owner = .temp u → P u

namespace Alloc

variable {P : Tree → Prop} {t : Tree} {s' : Allocator} {b : BlockId}

theorem Produced.congr (hs : s.Produced P) (hext : s.Continues s')
    (hcount : s'.notes.intervalCount = s.notes.intervalCount) : s'.Produced P := by
  intro i u hi howner
  rw [hcount] at hi
  rw [hext.owner_eq hi] at howner
  exact hs i u hi howner

/-- Only a tree that computes a value gets a temporary. -/
theorem Move.produced {phase : Phase} (h : Move g t phase s s') (hs : s.Produced P)
    (ht : t.kind ≠ .ldLocal → t.kind ≠ .stLocal → ∀ p, g.parent t = some p → P t) :
    s'.Produced P := by
  have hext := h.extends.toContinues
  cases h with
  | turn _ tree reuse => exact Produced.congr hs hext rfl
  | release hsifted =>
      exact Produced.congr hs hext hsifted.count_eq
  | carrySpill sp reg k rest hsp hlive hrest hk => exact Produced.congr hs hext rfl
  | annotate f hindex hspills hrestores hreg => exact Produced.congr hs hext rfl
  | settle i value rest hkind hslot hvalue hlive hsettle =>
      exact Produced.congr hs hext (intervalCount_settle hsettle)
  | create p hparent hload hstore =>
      intro i u hi howner
      simp only [Allocator.interval, Notes.interval_addInterval] at howner
      split at howner
      · injection howner with howner
        exact howner ▸ ht hload hstore p hparent
      · next hne => exact hs i u (Nat.lt_of_le_of_ne (Nat.le_of_lt_succ hi) (Ne.symm hne)) howner

theorem Moves.produced {phase : Phase} {rs : List (Allocator × IntervalId)}
    (h : Moves g t phase rs s s') (hs : s.Produced P)
    (ht : t.kind ≠ .ldLocal → t.kind ≠ .stLocal → ∀ p, g.parent t = some p → P t) :
    s'.Produced P := by
  induction h with
  | nil s => exact hs
  | move hmove _ ih => exact ih (hmove.produced hs ht)
  | activate _ hactivated _ ih =>
      exact ih (Produced.congr hs hactivated.extends.toContinues hactivated.intervalCount_eq)

theorem scanTrees_produced (hg : g.twins = {}) {ts : List Tree}
    (h : scanTrees g ts s = .ok () s') (hs : s.Produced P)
    (hts : ∀ t ∈ ts, t.kind ≠ .ldLocal → t.kind ≠ .stLocal → ∀ p, g.parent t = some p → P t) :
    s'.Produced P := by
  induction ts generalizing s with
  | nil =>
      obtain ⟨-, rfl⟩ := pure_cases h
      exact hs
  | cons t ts ih =>
      obtain ⟨⟨⟩, s₁, hfirst, hrest⟩ := exists_of_bind_apply_eq_ok h
      exact ih hrest ((scanTree_moves hg hfirst).produced hs (hts t (by simp)))
        fun t ht => hts t (by simp [ht])

theorem scanBlock_produced {pending : List Tree} {s₀ : Allocator} {scanned : List BlockId}
    (hg : g.Formed pending) (hhas : HasScanned g s₀ scanned s) (h : scanBlock g b s = .ok () s')
    (hs : s.Produced P)
    (hts : ∀ t ∈ g.treesOf b, t.kind ≠ .ldLocal → t.kind ≠ .stLocal →
      ∀ p, g.parent t = some p → P t) : s'.Produced P := by
  obtain ⟨s₁, s₂, henter, htrees, hdepart⟩ := scanBlock_cases h
  have hentered := enter_entered hhas.orderly (HasScanned.exits hhas) henter
  have hs₁ := Produced.congr hs hentered.continues (enter_notes henter).1
  have hstart : s₁.Scanning g [] := ⟨hentered.orderly, by simp⟩
  have hscan := (scanTrees_scanning hg hstart (b := b) rfl htrees).1
  have hdeparted := depart_departed hscan.orderly hdepart
  exact Produced.congr (scanTrees_produced hg.twins_eq htrees hs₁ hts) hdeparted.continues
    (depart_notes hdepart).1

end Alloc

/-! ## Edges -/

/-- Only local variables cross from block to block. -/
structure Notes.SlotsCross (n : Notes) : Prop where
  exit : ∀ b crossings, (n.block b).exit = some crossings → ∀ c ∈ crossings.members,
    ∃ k, (n.interval c.interval).owner = .slot k
  entry : ∀ b crossings, (n.block b).entry = some crossings → ∀ c ∈ crossings.members,
    ∃ k, (n.interval c.interval).owner = .slot k

theorem Notes.SlotsCross.congr {n n' : Notes} (h : n.SlotsCross) {P : Prop}
    (hframe : (∀ b, n'.block b = n.block b) ∧ (∀ i, n'.interval i = n.interval i) ∧ P) :
    n'.SlotsCross := by
  obtain ⟨hblock, hinterval, -⟩ := hframe
  constructor
  · intro b crossings hexit c hc
    rw [hblock] at hexit
    rw [hinterval]
    exact h.exit b crossings hexit c hc
  · intro b crossings hentry c hc
    rw [hblock] at hentry
    rw [hinterval]
    exact h.entry b crossings hentry c hc

namespace Notes

variable (n : Notes) (before after : List Crossing)

theorem sameSlot_trim (c d : Crossing) : (n.trim T).sameSlot c d = n.sameSlot c d := by
  simp [sameSlot]

theorem edgeSpills_trim : (n.trim T).edgeSpills before after = n.edgeSpills before after := by
  simp [edgeSpills, sameSlot_trim]

theorem edgeMoves_trim : (n.trim T).edgeMoves before after = n.edgeMoves before after := by
  simp [edgeMoves, sameSlot_trim]

theorem edgeRestores_trim :
    (n.trim T).edgeRestores before after = n.edgeRestores before after := by
  simp [edgeRestores, sameSlot_trim]

theorem addTraffic_trim (e : EdgeId) (spills : List Spill) (moves : List Move)
    (restores : List Restore) :
    (n.trim T).addTraffic e spills moves restores =
      (n.addTraffic e spills moves restores).trim T :=
  rfl

variable {n}

theorem ownerLine_trim {i : IntervalId} (h : ∃ k, (n.interval i).owner = .slot k) :
    (n.trim T).ownerLine (g.trim T) i = n.ownerLine g i := by
  obtain ⟨k, hk⟩ := h
  simp [ownerLine, hk, Owner.trim]

theorem moveLines_trim {moves : List Move}
    (h : ∀ m ∈ moves, ∃ k, (n.interval m.interval).owner = .slot k) :
    (n.trim T).moveLines (g.trim T) moves = n.moveLines g moves :=
  List.map_congr_left fun m hm => ownerLine_trim (h m hm)

theorem restoreLines_trim {e : EdgeId} {restores : List Restore}
    (h : ∀ r ∈ restores, ∃ k, (n.interval r.interval).owner = .slot k) :
    restoreLines (g.trim T) e (n.trim T) restores = restoreLines g e n restores := by
  induction restores generalizing n with
  | nil => rfl
  | cons r restores ih =>
      rw [restoreLines, restoreLines, ownerLine_trim (h r (by simp))]
      exact congrArg _ (ih (n := n.addTraffic e [] [] [r]) fun q hq => h q (by simp [hq]))

end Notes

namespace Alloc

/-- Only lines about local variables are shown, so that nothing that is shown depends on what
is left out. -/
theorem resolveEdge_mirrors (hs : s.notes.SlotsCross) (b : BlockId) (e : EdgeId)
    (target : BlockId) :
    Mirrors (Allocator.trim T) (resolveEdge g b e target) (resolveEdge (g.trim T) b e target)
      s := by
  refine mirrors_get_bind ?_
  simp only [notes_trim, Notes.block_trim, Notes.edgeSpills_trim, Notes.edgeMoves_trim,
    Notes.edgeRestores_trim]
  cases hentry : (s.notes.block target).entry with
  | none => exact mirrors_throw _ s
  | some after =>
      have hbefore : ∀ c ∈ ((s.notes.block b).exit.map Crossings.members).getD [],
          ∃ k, (s.notes.interval c.interval).owner = .slot k := by
        intro c hc
        cases hexit : (s.notes.block b).exit with
        | none => simp [hexit] at hc
        | some crossings =>
            rw [hexit] at hc
            exact hs.exit b crossings hexit c hc
      generalize ((s.notes.block b).exit.map Crossings.members).getD [] = before at hbefore ⊢
      have hmoves : ∀ m ∈ s.notes.edgeMoves before after.members,
          ∃ k, (s.notes.interval m.interval).owner = .slot k := by
        intro m hm
        obtain ⟨c, hc, d, -, -, -, rfl⟩ := Notes.mem_edgeMoves.mp hm
        exact hbefore c hc
      have hrestores : ∀ r ∈ s.notes.edgeRestores before after.members,
          ∃ k, (s.notes.interval r.interval).owner = .slot k := by
        intro r hr
        obtain ⟨d, hd, rfl⟩ := List.mem_map.mp hr
        exact hs.entry target after hentry d (List.mem_filter.mp hd).1
      simp only [Notes.addTraffic_trim, Notes.moveLines_trim hmoves]
      rw [Notes.restoreLines_trim (n := s.notes.addTraffic e _ _ _) hrestores]
      rfl

theorem resolveEdge_slotsCross (hs : s.notes.SlotsCross) {b target : BlockId} {e : EdgeId}
    {s₁ : Allocator} (h : resolveEdge g b e target s = .ok () s₁) : s₁.notes.SlotsCross := by
  obtain ⟨after, log, -, rfl⟩ := resolveEdge_cases h
  exact ⟨hs.exit, hs.entry⟩

/-- Edges are followed alike, since those of a block are not left out. -/
theorem resolveEdges_mirrors (hg : ∀ b t, g.terminator b = .ok t → t.EndsBlock)
    (bs : List BlockId) (hs : s.notes.SlotsCross) :
    Mirrors (Allocator.trim T) (resolveEdges g bs) (resolveEdges (g.trim T) bs) s := by
  induction bs generalizing s with
  | nil => exact mirrors_pure () s
  | cons b bs ih =>
      have hexits : Mirrors (Allocator.trim T) (Ir.eachExit g s.notes b (resolveEdge g b))
          (Ir.eachExit (g.trim T) (s.notes.trim T) b (resolveEdge (g.trim T) b)) s :=
        Ir.eachExit_mirrors T g s.notes (hg b)
          (fun e target s hs => resolveEdge_mirrors hs b e target)
          (fun e target s s₁ hs => resolveEdge_slotsCross hs) hs
      refine mirrors_get_bind (hexits.bind fun _ s₁ hexit => ih ?_)
      have hone : resolveEdges g [b] s = .ok () s₁ := by
        rw [resolveEdges, bind_apply_of_ok (get_apply s), bind_apply_of_ok hexit]
        rfl
      exact hs.congr (resolveEdges_resolved hone).frame

/-! ## The whole scan -/

theorem HasScanned.slotsCross {s₀ : Allocator} {scanned : List BlockId}
    (hs : HasScanned g s₀ scanned s) : s.notes.SlotsCross where
  exit b crossings h c hc :=
    ⟨_, hs.orderly.owner_slot _ ((HasScanned.exits hs b crossings h).interval_lt c hc)⟩
  entry b crossings h c hc :=
    ⟨_, hs.orderly.owner_slot _ ((HasScanned.entries hs b crossings h).interval_lt c hc)⟩

end Alloc

open Alloc

/-! ## Outcomes -/

/-- The intervals are of the same variable, or of values of trees with the same number; they
are used and written by trees with the same numbers, and live in the same register. -/
structure Interval.Matches (iv iv' : Interval) : Prop where
  owner : match iv.owner, iv'.owner with
    | .slot k, .slot k' => k = k'
    | .temp t, .temp t' => t.id = t'.id
    | _, _ => False
  uses : iv.uses.map Tree.id = iv'.uses.map Tree.id
  writes : iv.writes.map Tree.id = iv'.writes.map Tree.id
  firstWrite : iv.firstWrite = iv'.firstWrite
  lastRead : iv.lastRead = iv'.lastRead
  liveIn : iv.liveIn = iv'.liveIn

/-- Two compilations have the same outcome: the scan returned or stopped for the same reason,
the same lines were shown, and trees, blocks and edges that stand in the same places have the
same notes. -/
structure Compiled.SameOutcome (c d : Compiled) : Prop where
  fault : c.fault = d.fault
  log : c.alloc.log = d.alloc.log
  blocks : c.ir.blocks c.graph = d.ir.blocks d.graph
  block_notes : ∀ b, c.alloc.notes.block b = d.alloc.notes.block b
  trees : ∀ b, List.Forall₂
    (fun t u => t.id = u.id ∧ t.kind = u.kind ∧ c.alloc.notes.tree t = d.alloc.notes.tree u)
    (c.graph.treesOf b) (d.graph.treesOf b)
  exits : ∀ b, c.graph.exits b = d.graph.exits b
  edge_notes : ∀ e, c.alloc.notes.edge e = d.alloc.notes.edge e
  count : c.alloc.notes.intervalCount = d.alloc.notes.intervalCount
  intervals : ∀ i, (c.alloc.interval i).Matches (d.alloc.interval i)

theorem Interval.matches_of_trim_eq {iv iv' : Interval} (h : iv.trim T = iv'.trim T) :
    iv.Matches iv' := by
  have hids : ∀ ts : List Tree, (ts.map (Tree.trim T)).map Tree.id = ts.map Tree.id := by
    intro ts
    simp
  constructor
  · have howner : iv.owner.trim T = iv'.owner.trim T := congrArg Interval.owner h
    cases hiv : iv.owner with
    | slot k =>
        cases hiv' : iv'.owner with
        | slot k' => simpa [hiv, hiv', Owner.trim] using howner
        | temp t' => simp [hiv, hiv', Owner.trim] at howner
    | temp t =>
        cases hiv' : iv'.owner with
        | slot k' => simp [hiv, hiv', Owner.trim] at howner
        | temp t' =>
            rw [hiv, hiv', Owner.trim, Owner.trim] at howner
            injection howner with htree
            simpa using congrArg Tree.id htree
  · have huses := congrArg (List.map Tree.id) (congrArg Interval.uses h)
    exact (hids _).symm.trans (huses.trans (hids _))
  · have hwrites := congrArg (List.map Tree.id) (congrArg Interval.writes h)
    exact (hids _).symm.trans (hwrites.trans (hids _))
  · exact (congrArg Interval.firstWrite h :)
  · exact (congrArg Interval.lastRead h :)
  · exact (congrArg Interval.liveIn h :)

theorem Tree.edges_trim {t : Tree} (ht : t.EndsBlock) : (t.trim T).edges = t.edges := by
  by_cases hstore : t.kind = .stLocal
  · have hedges := ht.2 hstore
    rw [Tree.edges] at hedges
    rw [Tree.edges, Tree.edges, Tree.operands_trim, hedges, hstore]
    cases T with
    | constants => exact hedges
    | stores =>
        refine List.filterMap_eq_nil_iff.mpr fun o ho => ?_
        exact List.filterMap_eq_nil_iff.mp hedges o (List.mem_of_mem_take ho)
  · rw [Tree.edges, Tree.edges, Tree.operands_trim, T.operands_eq ht.1 hstore]

theorem Graph.exits_trim (hg : ∀ b t, g.terminator b = .ok t → t.EndsBlock) (b : BlockId) :
    (g.trim T).exits b = g.exits b := by
  rw [exits, exits, terminator_trim]
  cases hlast : g.terminator b with
  | error fault => rfl
  | ok t => exact Tree.edges_trim (hg b t hlast)

namespace Compiled

/-- What compiling a program gives, without the operands that are left out. -/
def bare (T : Trim) (c : Compiled) : Graph × Ir × Allocator × Option Fault :=
  (c.graph.trim T, c.ir, c.alloc.trim T, c.fault)

/-- Compilations that differ only in the operands that are left out have the same outcome. -/
theorem sameOutcome_of_bare_eq {c d : Compiled} (h : c.bare T = d.bare T)
    (hc : ∀ b t, c.graph.terminator b = .ok t → t.EndsBlock)
    (hd : ∀ b t, d.graph.terminator b = .ok t → t.EndsBlock) : c.SameOutcome d := by
  simp only [bare, Prod.mk.injEq] at h
  obtain ⟨hgraph, hir, halloc, hfault⟩ := h
  have hnotes : c.alloc.notes.trim T = d.alloc.notes.trim T := congrArg Allocator.notes halloc
  constructor
  · exact hfault
  · exact (congrArg Allocator.log halloc :)
  · rw [Ir.blocks, Ir.blocks, ← Graph.blocksFrom_trim T c.graph, hgraph, Graph.blocksFrom_trim, hir]
  · intro b
    rw [← Notes.block_trim T, hnotes, Notes.block_trim]
  · intro b
    have htrees : (c.graph.treesOf b).map (Tree.trim T) =
        (d.graph.treesOf b).map (Tree.trim T) := by
      rw [← Graph.treesOf_trim, hgraph, Graph.treesOf_trim]
    rw [← List.forall₂_eq_eq_eq, List.forall₂_map_left_iff, List.forall₂_map_right_iff] at htrees
    refine htrees.imp fun t u htu => ⟨?_, ?_, ?_⟩
    · rw [← Tree.id_trim T, htu, Tree.id_trim]
    · rw [← Tree.kind_trim T, htu, Tree.kind_trim]
    · rw [← Notes.tree_trim T, hnotes, htu, Notes.tree_trim]
  · intro b
    rw [← Graph.exits_trim hc, hgraph, Graph.exits_trim hd]
  · intro e
    rw [← Notes.edge_trim T, hnotes, Notes.edge_trim]
  · exact (congrArg Notes.intervalCount hnotes :)
  · intro i
    refine Interval.matches_of_trim_eq (T := T) ?_
    rw [← interval_trim, halloc, interval_trim]

end Compiled

namespace Program

variable {p q : Program} {settings : Settings}

/-- The scan of the program does the same without the operands that are left out. -/
def Mirrored (T : Trim) (p : Program) (settings : Settings) : Prop :=
  ∀ m, p.import? = .ok m →
    Mirrors (Allocator.trim T) (scan m.graph m.ir) (scan (m.graph.trim T) m.ir)
      (Allocator.create m.notes settings.registers settings.reuse)

/-- The scan of a program does the same if that of its blocks does. -/
theorem mirrored_of_blocks
    (hblocks : ∀ m s, p.import? = .ok m →
      survey m.graph m.ir (Allocator.create m.notes settings.registers settings.reuse) =
        .ok () s →
      Mirrors (Allocator.trim T) (scanBlocks m.graph (m.graph.blocksFrom 0))
        (scanBlocks (m.graph.trim T) (m.graph.blocksFrom 0)) s) : p.Mirrored T settings := by
  intro m h
  obtain ⟨⟨pending, hg⟩, hfresh, hfirst⟩ := import?_formed h
  obtain ⟨r, hread, hwell, hgraph, -⟩ := import?_read h
  have hends : ∀ b t, m.graph.terminator b = .ok t → t.EndsBlock := by
    intro b t ht
    rw [hgraph] at ht
    exact hread.endsBlock hwell ht
  have hchain : m.ir.blocks m.graph = m.graph.blocksFrom 0 := by
    rw [Ir.blocks, hfirst]
  have hchain' : m.ir.blocks (m.graph.trim T) = m.graph.blocksFrom 0 := by
    rw [Ir.blocks, hfirst, Graph.blocksFrom_trim]
  rw [scan, scan, hchain, hchain']
  refine (survey_mirrors m.ir _).bind fun _ s₁ hsurvey => ?_
  refine (hblocks m s₁ h hsurvey).bind fun _ s₂ hscan => ?_
  have hhas := scanBlocks_hasScanned hg (survey_hasScanned hfresh hsurvey).1
    (by simpa using hg.chained.nodup) hscan
  exact resolveEdges_mirrors hends _ (HasScanned.slotsCross hhas)

theorem compile_trim (h : p.Mirrored T settings) :
    ((p.trim T).compile settings).map (fun c => (c.graph, c.ir, c.alloc, c.fault)) =
      (p.compile settings).map (Compiled.bare T) := by
  rw [compile, compile, import?_trim]
  cases himport : p.import? with
  | error fault => rfl
  | ok m =>
      have hscan : scan (m.graph.trim T) m.ir
          (Allocator.create (m.notes.trim T) settings.registers settings.reuse) = _ := h m himport
      simp only [Except.map, bind, Except.bind, Imported.trim, hscan]
      cases scan m.graph m.ir (Allocator.create m.notes settings.registers settings.reuse) with
      | ok _ s => rfl
      | error fault s => rfl

theorem terminator_endsBlock {c : Compiled} (h : p.compile settings = .ok c) (b : BlockId)
    (t : Tree) (ht : c.graph.terminator b = .ok t) : t.EndsBlock := by
  obtain ⟨m, himport, hgraph, -⟩ := compile_imported h
  obtain ⟨r, hread, hwell, hr, -⟩ := import?_read himport
  rw [hgraph, hr] at ht
  exact hread.endsBlock hwell ht

/-- Programs that differ only in the operands that are left out are compiled with the same
outcome, if these do not matter to their scans. -/
theorem sameOutcome_of_trim_eq (heq : p.trim T = q.trim T) (hp : p.Mirrored T settings)
    (hq : q.Mirrored T settings) :
    (∃ fault, p.compile settings = .error fault ∧ q.compile settings = .error fault) ∨
      ∃ c d, p.compile settings = .ok c ∧ q.compile settings = .ok d ∧ c.SameOutcome d := by
  have hbare : (p.compile settings).map (Compiled.bare T) =
      (q.compile settings).map (Compiled.bare T) := by
    rw [← compile_trim hp, ← compile_trim hq, heq]
  cases hc : p.compile settings with
  | error fault =>
      cases hd : q.compile settings with
      | error fault' =>
          rw [hc, hd] at hbare
          injection hbare with hfault
          exact Or.inl ⟨fault, rfl, by rw [hfault]⟩
      | ok d =>
          rw [hc, hd] at hbare
          cases hbare
  | ok c =>
      cases hd : q.compile settings with
      | error fault =>
          rw [hc, hd] at hbare
          cases hbare
      | ok d =>
          rw [hc, hd] at hbare
          injection hbare with hbare
          exact Or.inr ⟨c, d, rfl, rfl, Compiled.sameOutcome_of_bare_eq hbare
            (terminator_endsBlock hc) (terminator_endsBlock hd)⟩

end Program
end LinearScan
