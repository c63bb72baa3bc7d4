import LinearScan.Samples
import LinearScan.Proofs.Origins
import LinearScan.Proofs.Seams

/-!
# The two targets of a branch

A branch looks up two offsets, one after the other.  When both lie ahead of everything that
was read, both look-ups land in the last block of the chain.  If that block has statements,
the farther target has to be looked up first: the nearer one then goes between it and the
block.  In the other order the second look-up lands in the empty block that the first one
made, and fails.  So the order makes no difference if and only if the last block is empty, and
then both orders fail.
-/

namespace LinearScan

/-! ## The states in which instructions are read -/

namespace Importer

/-- The instructions that come to be read, each with the state in which it is read.  The last
one may be refused. -/
def readings : Nat → List Instr → Importer → List (Instr × Importer)
  | _, [], _ => []
  | i, instr :: rest, s =>
      (instr, s) ::
        match s.step i rest.isEmpty instr with
        | .ok s' => readings (i + 1) rest s'
        | .error _ => []

/-- What each instruction keeps holds whenever one is read. -/
theorem Read.of_mem_readings
    {code : List Instr} {instrs : List Instr} {i : Nat} {s : Importer} {x : Instr × Importer}
    (hs : s.Read code) (hcode : code.drop i = instrs) (hx : x ∈ readings i instrs s) :
    x.2.Read code := by
  induction instrs generalizing i s with
  | nil => cases hx
  | cons instr rest ih =>
      rw [readings] at hx
      rcases List.mem_cons.mp hx with rfl | hx
      · exact hs
      · obtain ⟨hinstr, htail⟩ := drop_cases hcode
        cases hstep : s.step i rest.isEmpty instr with
        | error fault =>
            rw [hstep] at hx
            cases hx
        | ok s' =>
            rw [hstep] at hx
            exact ih (hs.step hinstr hstep) htail hx

end Importer

/-- The instructions of a program that come to be read, each with the state in which it is
read. -/
def Program.readings (p : Program) : List (Instr × Importer) :=
  Importer.readings 0 p.instrs Importer.fresh

theorem Program.read_of_mem_readings {p : Program} {x : Instr × Importer}
    (hx : x ∈ p.readings) : x.2.Read p.instrs :=
  (Importer.Read.start p.instrs).of_mem_readings rfl hx

/-! ## Offsets ahead of everything -/

namespace Graph

variable {g : Graph} {offset near far : Int} {l : BlockId} {front after : List BlockId}

/-- The blocks of the chain in order, each with its offset and its statements. -/
def spans (g : Graph) : List Span :=
  (g.blocksFrom 0).map g.span

/-- Every block and every statement starts before `offset`. -/
def Ahead (g : Graph) (offset : Int) : Prop :=
  ∀ r ∈ g.spans, r.offset < offset ∧ ∀ y ∈ r.entries, y.1 < offset

instance (g : Graph) (offset : Int) : Decidable (g.Ahead offset) :=
  inferInstanceAs (Decidable (∀ r ∈ g.spans, r.offset < offset ∧ ∀ y ∈ r.entries, y.1 < offset))

theorem Ahead.block_lt (h : g.Ahead offset) {c : BlockId} (hc : c ∈ g.blocksFrom 0) :
    (g.block c).offset < offset :=
  (h (g.span c) (List.mem_map.mpr ⟨c, hc, rfl⟩)).1

theorem Ahead.entries_lt (h : g.Ahead offset) {c : BlockId} (hc : c ∈ g.blocksFrom 0)
    {y : Int × Tree} (hy : y ∈ g.entries c) : y.1 < offset :=
  (h (g.span c) (List.mem_map.mpr ⟨c, hc, rfl⟩)).2 y hy

/-- A search passes the blocks that start before the offset. -/
theorem landing_eq
    {b : BlockId} {rest : List BlockId} (hchain : b :: rest = front ++ l :: after)
    (hbefore : ∀ c ∈ front ++ [l], (g.block c).offset < offset)
    (hafter : ∀ c ∈ after, offset < (g.block c).offset) :
    g.landing offset b rest = l := by
  induction front generalizing b rest with
  | nil =>
      obtain ⟨rfl, rfl⟩ := List.cons.inj hchain
      cases rest with
      | nil => rfl
      | cons c rest =>
          have hc := hafter c (by simp)
          rw [landing, if_neg]
          omega
  | cons c front ih =>
      obtain ⟨rfl, hrest⟩ := List.cons.inj hchain
      -- The next block is in front of `l`, or it is `l`.
      obtain ⟨d, rest', rfl, hd⟩ : ∃ d rest', rest = d :: rest' ∧ d ∈ front ++ [l] := by
        cases front with
        | nil => exact ⟨l, after, hrest, by simp⟩
        | cons d front => exact ⟨d, front ++ l :: after, hrest, by simp⟩
      rw [landing, if_pos]
      · exact ih hrest fun e he => hbefore e (List.mem_cons_of_mem _ he)
      · exact ⟨hbefore b (by simp), Int.le_of_lt (hbefore d (List.mem_cons_of_mem _ hd))⟩

namespace Threaded

section

variable (hg : g.Threaded) (hchain : g.blocksFrom 0 = front ++ l :: after)
  (hbefore : ∀ c ∈ front ++ [l], (g.block c).offset < offset)
  (hafter : ∀ c ∈ after, offset < (g.block c).offset)
include hg hchain hbefore hafter

theorem landing_eq : g.landing offset 0 (g.blocksFrom 0).tail = l :=
  Graph.landing_eq (hg.cons_tail.trans hchain) hbefore hafter

/-- A look-up between an empty block and the next one fails. -/
theorem blockAt_empty (hempty : g.entries l = []) : blockAt 0 offset g = .error .emptyBlock g := by
  have hfirst := (entries_eq_nil_iff hg.linked).mp hempty
  have hne : (g.block l).offset ≠ offset := Int.ne_of_lt (hbefore l (by simp))
  rw [blockAt_apply, locate_of_first_eq_none (hg.landing_eq hchain hbefore hafter) hne hfirst]

/-- A look-up between the statements of a block and the next block puts an empty block in. -/
theorem blockAt_behind (hne : g.entries l ≠ []) (hentries : ∀ y ∈ g.entries l, y.1 < offset) :
    ∃ g', blockAt 0 offset g = .ok g.blockCount g' ∧ g'.Threaded ∧
      g'.blocksFrom 0 = front ++ l :: g.blockCount :: after ∧
      g'.span g.blockCount = ⟨offset, []⟩ ∧ ∀ c ∈ g.blocksFrom 0, g'.span c = g.span c := by
  have hlanding := hg.landing_eq hchain hbefore hafter
  have hoffset : (g.block l).offset ≠ offset := Int.ne_of_lt (hbefore l (by simp))
  have hfirst : (g.block l).first ≠ none := fun hnone =>
    hne ((entries_eq_nil_iff hg.linked).mpr hnone)
  have hplace : g.locate 0 offset = .ok (.behind l) := by
    refine locate_of_forall_lt hlanding hoffset hfirst ?_
    intro s hs
    exact hentries _ (List.mem_map.mpr ⟨s, hs, rfl⟩)
  refine ⟨g.insertBehind l offset, ?_, hg.insertBehind hlanding hoffset, ?_, ?_, ?_⟩
  · rw [blockAt_apply, hplace]
  · exact (hg.chained.insert hchain (g.insertBehind_blockCount l offset)
      fun c => g.insertBehind_next l c offset).2
  · rw [span, insertBehind_offset, if_pos rfl, entries_insertBehind, if_pos rfl]
  · intro c hc
    have hc : c ≠ g.blockCount := Nat.ne_of_lt ((hg.chained.mem_iff c).mp hc)
    rw [span, insertBehind_offset, if_neg hc, entries_insertBehind, if_neg hc, span]

end

end Threaded

/-! ## Two look-ups -/

/-- Two look-ups, one after the other. -/
def blocksAt (a b : Int) : EStateM Fault Graph (BlockId × BlockId) := do
  let x ← blockAt 0 a
  let y ← blockAt 0 b
  return (x, y)

/-- Whether both look-ups are served, and the chain of blocks that they leave. -/
def lookUps (g : Graph) (a b : Int) : Bool × List Span :=
  match blocksAt a b g with
  | .ok _ g' => (true, g'.spans)
  | .error _ g' => (false, g'.spans)

theorem lookUps_of_error {a b : Int} {fault : Fault} (h : blockAt 0 a g = .error fault g) :
    g.lookUps a b = (false, g.spans) := by
  simp only [lookUps, blocksAt, bind, EStateM.bind, h]

theorem lookUps_of_ok_error {a b : Int} {x : BlockId} {g' : Graph} {fault : Fault}
    (ha : blockAt 0 a g = .ok x g') (hb : blockAt 0 b g' = .error fault g') :
    g.lookUps a b = (false, g'.spans) := by
  simp only [lookUps, blocksAt, bind, EStateM.bind, ha, hb]

theorem lookUps_of_ok_ok {a b : Int} {x y : BlockId} {g' g'' : Graph}
    (ha : blockAt 0 a g = .ok x g') (hb : blockAt 0 b g' = .ok y g'') :
    g.lookUps a b = (true, g''.spans) := by
  simp only [lookUps, blocksAt, bind, EStateM.bind, ha, hb]
  rfl

section

variable (hg : g.Threaded) (hchain : g.blocksFrom 0 = front ++ [l])
include hg hchain

/-- Look-ups ahead of a last block without statements are refused. -/
theorem Threaded.lookUps_of_last_empty (hempty : g.entries l = []) {a : Int} (b : Int)
    (ha : g.Ahead a) : g.lookUps a b = (false, g.spans) := by
  refine lookUps_of_error (hg.blockAt_empty hchain ?_ (by simp) hempty)
  intro c hc
  exact ha.block_lt (hchain ▸ hc)

/-- The nearer offset first: the second look-up lands in the block that the first one made. -/
theorem Threaded.lookUps_near_far (hne : g.entries l ≠ []) (hnear : g.Ahead near)
    (hfar : g.Ahead far) (hlt : near < far) :
    (∃ x g', blockAt 0 near g = .ok x g' ∧ blockAt 0 far g' = .error .emptyBlock g') ∧
      g.lookUps near far = (false, g.spans ++ [⟨near, []⟩]) := by
  have hmem : ∀ c ∈ front ++ [l], c ∈ g.blocksFrom 0 := fun c hc => hchain ▸ hc
  obtain ⟨g', hlook, hg', hchain', hnew, hkept⟩ := hg.blockAt_behind hchain
    (fun c hc => hnear.block_lt (hmem c hc)) (by simp) hne
    fun y hy => hnear.entries_lt (hmem l (by simp)) hy
  have hchain'' : g'.blocksFrom 0 = (front ++ [l]) ++ [g.blockCount] := by
    rw [hchain', List.append_assoc, List.singleton_append]
  have hspans : g'.spans = g.spans ++ [⟨near, []⟩] := by
    rw [spans, spans, hchain'', List.map_append, List.map_singleton, hnew, hchain,
      List.map_congr_left fun c hc => hkept c (hmem c hc)]
  have hsecond : blockAt 0 far g' = .error .emptyBlock g' := by
    refine hg'.blockAt_empty hchain'' ?_ (by simp) (congrArg Span.entries hnew)
    intro c hc
    rcases List.mem_append.mp hc with hc | hc
    · rw [show (g'.block c).offset = (g.block c).offset from
        congrArg Span.offset (hkept c (hmem c hc))]
      exact hfar.block_lt (hmem c hc)
    · rw [List.mem_singleton.mp hc, show (g'.block g.blockCount).offset = near from
        congrArg Span.offset hnew]
      exact hlt
  refine ⟨⟨g.blockCount, g', hlook, hsecond⟩, ?_⟩
  rw [lookUps_of_ok_error hlook hsecond, hspans]

/-- The farther offset first: both look-ups make a block. -/
theorem Threaded.lookUps_far_near (hne : g.entries l ≠ []) (hnear : g.Ahead near)
    (hfar : g.Ahead far) (hlt : near < far) :
    g.lookUps far near = (true, g.spans ++ [⟨near, []⟩, ⟨far, []⟩]) := by
  have hmem : ∀ c ∈ front ++ [l], c ∈ g.blocksFrom 0 := fun c hc => hchain ▸ hc
  obtain ⟨g', hlook, hg', hchain', hnew, hkept⟩ := hg.blockAt_behind hchain
    (fun c hc => hfar.block_lt (hmem c hc)) (by simp) hne
    fun y hy => hfar.entries_lt (hmem l (by simp)) hy
  have hentries : g'.entries l = g.entries l :=
    congrArg Span.entries (hkept l (hmem l (by simp)))
  -- The second look-up lands in front of the block that the first one made.
  have hbefore : ∀ c ∈ front ++ [l], (g'.block c).offset < near := by
    intro c hc
    rw [show (g'.block c).offset = (g.block c).offset from
      congrArg Span.offset (hkept c (hmem c hc))]
    exact hnear.block_lt (hmem c hc)
  obtain ⟨g'', hlook', -, hchain'', hnew', hkept'⟩ := hg'.blockAt_behind hchain' hbefore
    (fun c hc => by
      rw [List.mem_singleton.mp hc, show (g'.block g.blockCount).offset = far from
        congrArg Span.offset hnew]
      exact hlt)
    (hentries ▸ hne)
    (fun y hy => hnear.entries_lt (hmem l (by simp)) (hentries ▸ hy))
  rw [lookUps_of_ok_ok hlook hlook']
  have hold : ∀ c ∈ front ++ [l], g''.span c = g.span c := by
    intro c hc
    have hc' : c ∈ g'.blocksFrom 0 := by
      rw [hchain']
      simp only [List.mem_append, List.mem_cons] at hc ⊢
      tauto
    rw [hkept' c hc', hkept c (hmem c hc)]
  have hfirst : g''.span g.blockCount = ⟨far, []⟩ := by
    rw [hkept' g.blockCount (by rw [hchain']; simp), hnew]
  have hsplit : g''.blocksFrom 0 = (front ++ [l]) ++ [g'.blockCount, g.blockCount] := by
    rw [hchain'', List.append_assoc, List.singleton_append]
  rw [spans, spans, hsplit, List.map_append, List.map_congr_left hold, hchain, List.map_cons,
    List.map_singleton, hnew', hfirst]

end

end Graph

/-! ## The order of the targets -/

/-- A branch that names the nearer target first is refused, when the last block has
statements. -/
theorem Importer.step_branch_near_far {s : Importer} {near far : Int} {x : BlockId} {g : Graph}
    (hfirst : s.first = 0) (hnear : Graph.blockAt 0 near s.graph = .ok x g)
    (hfar : Graph.blockAt 0 far g = .error .emptyBlock g) (i : Nat) (isLast : Bool) :
    s.step i isLast ⟨.branch, [.num near, .num far]⟩ = .error .emptyBlock := by
  have hyes : s.edgeTo [.num near, .num far] 0 = .ok (x, { s with graph := g }) := by
    simp only [edgeTo, List.getElem?_cons_zero, target, hfirst, hnear]
  have hno : ({ s with graph := g } : Importer).edgeTo [.num near, .num far] 1 =
      .error .emptyBlock := by
    simp only [edgeTo, List.getElem?_cons_succ, List.getElem?_cons_zero, target, hfirst, hfar]
  simp only [step, hyes, hno, bind, Except.bind]

/-- **The order of two look-ups.**  Whenever an instruction is read, and `near` and `far` are
offsets ahead of every block and statement, the order in which they are looked up makes no
difference if and only if the last block has no statement.  In that case both orders are
refused and change nothing.  Otherwise the farther offset has to come first: then both blocks
are made, while in the other order only the nearer block is made, and a branch that names its
targets in that order is refused. -/
theorem Program.lookUps_comm_iff
    {p : Program} {instr : Instr} {s : Importer} (hs : (instr, s) ∈ p.readings)
    {near far : Int} (hlt : near < far) (hnear : s.graph.Ahead near) (hfar : s.graph.Ahead far) :
    ∃ front last, s.graph.spans = front ++ [last] ∧
      (s.graph.lookUps near far = s.graph.lookUps far near ↔ last.entries = []) ∧
      (last.entries = [] →
        s.graph.lookUps near far = (false, s.graph.spans) ∧
          s.graph.lookUps far near = (false, s.graph.spans)) ∧
      (last.entries ≠ [] →
        s.graph.lookUps far near = (true, s.graph.spans ++ [⟨near, []⟩, ⟨far, []⟩]) ∧
          s.graph.lookUps near far = (false, s.graph.spans ++ [⟨near, []⟩]) ∧
          ∀ i isLast, s.step i isLast ⟨.branch, [.num near, .num far]⟩ = .error .emptyBlock) := by
  have hread : s.Read p.instrs := read_of_mem_readings hs
  have hg : s.graph.Threaded := hread.placed.grown.threaded
  obtain ⟨front, l, hchain⟩ : ∃ front l, s.graph.blocksFrom 0 = front ++ [l] := by
    rw [← hg.cons_tail]
    exact ⟨_, _, (List.dropLast_append_getLast (List.cons_ne_nil _ _)).symm⟩
  have hempty : s.graph.entries l = [] →
      s.graph.lookUps near far = (false, s.graph.spans) ∧
        s.graph.lookUps far near = (false, s.graph.spans) := fun hnil =>
    ⟨hg.lookUps_of_last_empty hchain hnil far hnear, hg.lookUps_of_last_empty hchain hnil near hfar⟩
  have hfull : s.graph.entries l ≠ [] → _ := fun hne =>
    And.intro (hg.lookUps_far_near hchain hne hnear hfar hlt)
      (hg.lookUps_near_far hchain hne hnear hfar hlt)
  refine ⟨front.map s.graph.span, s.graph.span l, ?_, ⟨?_, ?_⟩, hempty, ?_⟩
  · rw [Graph.spans, hchain, List.map_append, List.map_singleton]
  · intro hcomm
    by_contra hne
    obtain ⟨hfn, -, hnf⟩ := hfull hne
    rw [hfn, hnf] at hcomm
    cases congrArg Prod.fst hcomm
  · intro hnil
    rw [(hempty hnil).1, (hempty hnil).2]
  · intro hne
    obtain ⟨hfn, ⟨x, g, hx, hy⟩, hnf⟩ := hfull hne
    exact ⟨hfn, hnf, Importer.step_branch_near_far hread.first_eq hx hy⟩

/-- The branch of the Fibonacci loop names the farther target first. -/
theorem Program.lookUps_comm_fibonacci :
    ∃ s, (Samples.instr .branch [23, 10], s) ∈ (Samples.fibonacci 7).readings ∧
      s.graph.Ahead 10 ∧ s.graph.Ahead 23 ∧
      s.graph.lookUps 23 10 = (true, s.graph.spans ++ [⟨10, []⟩, ⟨23, []⟩]) ∧
      s.graph.lookUps 10 23 = (false, s.graph.spans ++ [⟨10, []⟩]) := by
  have hreading : ∃ x ∈ (Samples.fibonacci 7).readings, x.1 = Samples.instr .branch [23, 10] ∧
      x.2.graph.Ahead 10 ∧ x.2.graph.Ahead 23 ∧ ∀ r ∈ x.2.graph.spans, r.entries ≠ [] := by
    decide +kernel
  obtain ⟨⟨instr, s⟩, hs, rfl, hnear, hfar, hfull⟩ := hreading
  obtain ⟨front, last, hspans, -, -, hlookUps⟩ := lookUps_comm_iff hs (by decide) hnear hfar
  obtain ⟨hfn, hnf, -⟩ := hlookUps (hfull last (hspans ▸ by simp))
  exact ⟨s, hs, hnear, hfar, hfn, hnf⟩

/-- A branch that is accepted only with its targets exchanged. -/
theorem Program.import?_refuses_nearer_target_first :
    let code := fun branch => ([Samples.instr .push [0], Samples.instr .pop,
      Samples.instr .push [1], branch, Samples.instr .push [7], Samples.instr .ret,
      Samples.instr .push [8], Samples.instr .ret] : List Instr)
    (∃ x ∈ (Program.mk 0 (code (Samples.instr .branch [4, 6]))).readings,
      x.1.opcode = .branch ∧ x.2.graph.Ahead 4 ∧ x.2.graph.Ahead 6 ∧
        (x.2.graph.lookUps 4 6).1 = false ∧ (x.2.graph.lookUps 6 4).1 = true) ∧
      (Program.mk 0 (code (Samples.instr .branch [4, 6]))).import?.isOk = false ∧
      (Program.mk 0 (code (Samples.instr .branch [6, 4]))).import?.isOk = true := by
  decide +kernel

end LinearScan
