import LinearScan.Proofs.Spans
import LinearScan.Samples

/-!
# Which programs can be read

A look-up fails when it lands in a block that has no statement yet.  Whether that happens
can be told from the code: a block ahead is empty until it is reached, and the current
block is empty until its first statement has ended.  For well-formed programs whose jumps
lead to seams this is the only reason for which a program is refused, and `Answered` says,
look-up by look-up, when it does not occur.  Jumps elsewhere can also land between statements,
or leave a block without edges at its end; whatever the jumps, a well-formed program is not
refused for its stack, its operands or its last instruction.
-/

namespace LinearScan

/-! ## What a program asks for -/

/-- How many targets an instruction has. -/
def Opcode.targetCount : Opcode → Nat
  | .jmp => 1
  | .branch => 2
  | _ => 0

/-- Whether an opcode is one of those that do something. -/
def Opcode.isKnown : Opcode → Bool
  | .other _ => false
  | _ => true

/-- The instruction fits in the code at `i`: it finds its values on the stack, leaves none
behind a statement, and jumps to where statements start. -/
structure Instr.FitsAt (code : List Instr) (i : Nat) (instr : Instr) : Prop where
  known : instr.opcode.isKnown = true
  takes_le : instr.opcode.takes ≤ depth (code.take i)
  depth_eq : instr.opcode.endsStatement = true → depth (code.take (i + 1)) = 0
  targets_length : instr.targets.length = instr.opcode.targetCount
  targets_start : ∀ offset ∈ instr.targets, offset < code.length ∧ StartsStatement code offset

instance (code : List Instr) (i : Nat) (instr : Instr) : Decidable (instr.FitsAt code i) :=
  decidable_of_iff
    (instr.opcode.isKnown = true ∧ instr.opcode.takes ≤ depth (code.take i) ∧
      (instr.opcode.endsStatement = true → depth (code.take (i + 1)) = 0) ∧
      instr.targets.length = instr.opcode.targetCount ∧
      ∀ offset ∈ instr.targets, offset < code.length ∧ StartsStatement code offset)
    ⟨fun ⟨known, takes, depth, length, start⟩ => ⟨known, takes, depth, length, start⟩,
      fun h => ⟨h.known, h.takes_le, h.depth_eq, h.targets_length, h.targets_start⟩⟩

/-- What is expected of a program: its instructions fit, and the last one does not fall
through. -/
structure Program.WellFormed (p : Program) : Prop where
  last_leaves : (p.instrs.getLast?).any (fun instr => instr.opcode.leaves) = true
  fits : ∀ x ∈ p.instrs.zipIdx, x.1.FitsAt p.instrs x.2

instance (p : Program) : Decidable p.WellFormed :=
  decidable_of_iff
    ((p.instrs.getLast?).any (fun instr => instr.opcode.leaves) = true ∧
      ∀ x ∈ p.instrs.zipIdx, x.1.FitsAt p.instrs x.2)
    ⟨fun ⟨last, fits⟩ => ⟨last, fits⟩, fun h => ⟨h.last_leaves, h.fits⟩⟩

theorem Program.WellFormed.fitsAt {p : Program} (hp : p.WellFormed) (j : Nat) (instr : Instr)
    (hinstr : p.instrs[j]? = some instr) : instr.FitsAt p.instrs j :=
  hp.fits (instr, j) (List.mk_mem_zipIdx_iff_getElem?.mpr hinstr)

/-- All jumps lead to seams. -/
def JumpsToSeams (code : List Instr) : Prop :=
  ∀ x ∈ code.zipIdx, ∀ offset ∈ x.1.targets, IsSeam code x.2 offset

instance (code : List Instr) : Decidable (JumpsToSeams code) :=
  inferInstanceAs (Decidable (∀ x ∈ code.zipIdx, ∀ offset ∈ x.1.targets, IsSeam code x.2 offset))

/-- A look-up of `offset` by the instruction at `i` finds or makes a block, when the offsets
`asked` were looked up before: the offset is not ahead, or it was looked up before, or the
current block has a statement and no block ahead stands in between. -/
def Answerable (code : List Instr) (i : Nat) (asked : List Int) (offset : Int) : Prop :=
  offset ≤ i ∨ offset ∈ asked ∨
    blockStart code i < statementStart code i ∧ ∀ other ∈ asked, other ≤ i ∨ offset < other

instance (code : List Instr) (i : Nat) (asked : List Int) (offset : Int) :
    Decidable (Answerable code i asked offset) :=
  inferInstanceAs (Decidable (_ ∨ _))

/-- The look-ups can be answered one after the other. -/
def Answered (code : List Instr) : List Int → List (Nat × Int) → Prop
  | _, [] => True
  | asked, (i, offset) :: rest =>
      Answerable code i asked offset ∧ Answered code (offset :: asked) rest

instance Answered.instDecidable (code : List Instr) :
    (asked : List Int) → (requests : List (Nat × Int)) → Decidable (Answered code asked requests)
  | _, [] => .isTrue trivial
  | asked, (_, offset) :: rest =>
      have := Answered.instDecidable code (offset :: asked) rest
      inferInstanceAs (Decidable (_ ∧ _))

/-- The look-ups that instructions ask for, the first of which has offset `i`: each with the
instruction that asks and the offset it asks for. -/
def requestsFrom (i : Nat) (code : List Instr) : List (Nat × Int) :=
  (code.zipIdx i).flatMap fun x => x.1.targets.map fun offset => (x.2, offset)

/-! ## Reading on -/

/-- The last instruction that is to be read is the last one of the code. -/
theorem leaves_of_isEmpty {code rest : List Instr} {i : Nat} {instr : Instr}
    (hleaves : (code.getLast?).any (fun instr => instr.opcode.leaves) = true)
    (hrest : code.drop i = instr :: rest) (hempty : rest.isEmpty = true) :
    instr.opcode.leaves = true := by
  rw [List.isEmpty_iff.mp hempty] at hrest
  rwa [getLast?_of_drop hrest] at hleaves

theorem ok_bind {α β : Type} (a : α) (f : α → Except Fault β) : (Except.ok a >>= f) = f a :=
  rfl

theorem Importer.exists_fold {s : Importer} {n : Nat} (hn : n ≤ s.stack.length) (kind : TreeKind)
    (operands : List Operand) : ∃ s', s.fold n kind operands = .ok s' := by
  rw [Importer.fold, if_neg (Nat.not_lt.mpr hn)]
  exact ⟨_, rfl⟩

section

variable {code : List Instr} {i : Nat} {instr : Instr} {s s' : Importer} {kind : TreeKind}
  {operands : List Operand} (hfits : instr.FitsAt code i)
  (hheight : (s.stack.length : Int) = depth (code.take i))
include hfits hheight

/-- The trees that an instruction takes are there. -/
theorem Instr.FitsAt.exists_fold (kind : TreeKind) (operands : List Operand) :
    ∃ s', s.fold instr.opcode.takes kind operands = .ok s' := by
  have hle := hfits.takes_le
  rw [← hheight] at hle
  exact Importer.exists_fold (Int.ofNat_le.mp hle) kind operands

/-- Nothing is left on the stack behind a statement. -/
theorem Instr.FitsAt.finish_stack (hinstr : code[i]? = some instr)
    (hends : instr.opcode.endsStatement = true)
    (hfold : s.fold instr.opcode.takes kind operands = .ok s') : (s'.finish i).stack = [] := by
  have hbalance : instr.opcode.balance = -instr.opcode.takes := by
    cases hop : instr.opcode <;> rw [hop] at hends <;> first | rfl | cases hends
  have hdepth := hfits.depth_eq hends
  rw [depth_take_succ hinstr, ← hheight, hbalance] at hdepth
  exact Importer.finish_stack_eq_nil hfold hdepth

end

theorem Importer.exists_computes {instr : Instr} (hknown : instr.opcode.isKnown = true)
    (hstay : instr.opcode.endsStatement = false) :
    ∃ kind operands, Computes instr instr.opcode.takes kind operands := by
  cases hop : instr.opcode with
  | ldLocal => exact ⟨_, _, .ldLocal hop⟩
  | push => exact ⟨_, _, .push hop⟩
  | binary op => exact ⟨_, _, .binary hop⟩
  | other name =>
      rw [hop] at hknown
      cases hknown
  | stLocal | pop | jmp | branch | ret =>
      rw [hop] at hstay
      cases hstay

/-! ## Where the importer stands -/

/-- How the importer stands before the instruction at `i`. -/
structure Underway
    (code : List Instr) (i : Nat) (asked : List Int) (s : Importer) (done : List Span) (cur : Span)
    (ahead : List Span) : Prop where
  shows : Shows s.graph s.block done cur ahead
  spans : Spans code i asked done cur ahead
  first_eq : s.first = 0
  start_eq : s.start = statementStart code i
  offset_eq : cur.offset = blockStart code i
  entries_ne_nil_iff : cur.entries ≠ [] ↔ blockStart code i < statementStart code i
  placed : ∀ y ∈ cur.entries, y.1 < statementStart code i

/-- How the importer stands behind the instruction at `i`: if the program ends there, the
current block is closed. -/
def Passed (code : List Instr) (i : Nat) (asked : List Int) (isLast : Bool) (s : Importer) : Prop :=
  ∃ done cur ahead,
    if isLast then
      Shows s.graph s.block done cur ahead ∧ Spans code i asked done cur ahead ∧ cur.Closed
    else
      Underway code (i + 1) asked s done cur ahead

namespace Underway

variable {code : List Instr} {i n : Nat} {asked : List Int} {s s' : Importer}
  {done ahead : List Span} {cur : Span} {offset : Int} {instr : Instr} {kind : TreeKind}
  {operands : List Operand}

section

variable (h : Underway code i asked s done cur ahead)
include h

theorem placed_le : ∀ y ∈ cur.entries, y.1 ≤ i := by
  intro y hy
  have hlt := h.placed y hy
  have hle : statementStart code i ≤ i := lastCut_le _ code i
  omega

/-- A graph with other trees and edges but the same blocks. -/
theorem regraph {g : Graph} (hsame : s.graph.SameBlocks g) (hg : g.Grown) :
    Underway code i asked { s with graph := g } done cur ahead :=
  { h with shows := h.shows.congr hsame hg }

theorem newEdge (b : BlockId) : Underway code i asked (s.newEdge b).2 done cur ahead :=
  h.regraph (s.graph.sameBlocks_newEdge b) (h.shows.grown.edge b)

/-- A block is looked up. -/
theorem target (hseam : IsSeam code i offset) :
    (Answerable code i asked offset ∧ ∃ b s' done' ahead', s.target offset = .ok (b, s') ∧
        Underway code i (offset :: asked) s' done' cur ahead') ∨
      (¬ Answerable code i asked offset ∧ s.target offset = .error .emptyBlock) := by
  have hiff : Answerable code i asked offset ↔ (offset ≤ i ∨ offset ∈ asked ∨
      cur.entries ≠ [] ∧ ∀ other ∈ asked, other ≤ i ∨ offset < other) := by
    rw [Answerable, h.entries_ne_nil_iff]
  by_cases hserved : Answerable code i asked offset
  · obtain ⟨b, g', done', ahead', hlook, hshows, hspans⟩ :=
      h.shows.lookup_returns h.spans hseam h.placed_le (hiff.mp hserved)
    refine Or.inl ⟨hserved, b, { s with graph := g' }, done', ahead', ?_, ?_⟩
    · rw [Importer.target, h.first_eq, hlook]
    · exact { h with shows := hshows, spans := hspans }
  · have hlook := h.shows.lookup_fails h.spans hseam.nonneg (hiff.not.mp hserved)
    refine Or.inr ⟨hserved, ?_⟩
    rw [Importer.target, h.first_eq, hlook]

section

variable (hinstr : code[i]? = some instr)
include hinstr

/-- An instruction that only puts a value on the stack. -/
theorem value (hstay : instr.opcode.endsStatement = false) (hleaves : instr.opcode.leaves = false)
    (hfold : s.fold n kind operands = .ok s') : Underway code (i + 1) asked s' done cur ahead := by
  obtain ⟨hn, rfl⟩ := Importer.fold_cases hfold
  have hgraph := h.regraph (s.graph.sameBlocks_newTree kind operands s.block _)
    (h.shows.grown.tree kind operands s.block (s.stack.take n).reverse)
  have hstart : statementStart code (i + 1) = statementStart code i := lastCut_stay hinstr hstay
  have hblock : blockStart code (i + 1) = blockStart code i := lastCut_stay hinstr hleaves
  exact {
    shows := hgraph.shows
    spans := h.spans.stay hinstr hleaves
    first_eq := h.first_eq
    start_eq := by rw [hstart]; exact h.start_eq
    offset_eq := by rw [hblock]; exact h.offset_eq
    entries_ne_nil_iff := by rw [hstart, hblock]; exact h.entries_ne_nil_iff
    placed := by rw [hstart]; exact h.placed }

/-- The tree of a statement is put at the end of the current block. -/
theorem append (hends : instr.opcode.endsStatement = true)
    (hfold : s.fold n kind operands = .ok s') :
    (s'.finish i).first = 0 ∧ (s'.finish i).start = statementStart code (i + 1) ∧
      ∃ t : Tree, t.operands = operands ∧ Shows (s'.finish i).graph (s'.finish i).block done
        (cur.push (statementStart code i) t) ahead := by
  obtain ⟨hn, rfl⟩ := Importer.fold_cases hfold
  have hgraph := h.regraph (s.graph.sameBlocks_newTree kind operands s.block _)
    (h.shows.grown.tree kind operands s.block (s.stack.take n).reverse)
  have hshows := hgraph.shows.append s.start
    (s.graph.newTree kind operands s.block (s.stack.take n).reverse).1
  exact ⟨h.first_eq, (lastCut_cut hinstr hends).symm, _, rfl, by rw [← h.start_eq]; exact hshows⟩

/-- An instruction that ends a statement and stays in its block. -/
theorem finish (hends : instr.opcode.endsStatement = true) (hleaves : instr.opcode.leaves = false)
    (hfold : s.fold n kind operands = .ok s') :
    ∃ cur', Underway code (i + 1) asked (s'.finish i) done cur' ahead := by
  obtain ⟨hfirst, hstart, t, -, hshows⟩ := h.append hinstr hends hfold
  have hblock : blockStart code (i + 1) = blockStart code i := lastCut_stay hinstr hleaves
  have hnext : statementStart code (i + 1) = i + 1 := lastCut_cut hinstr hends
  have hle : statementStart code i ≤ i := lastCut_le _ code i
  refine ⟨_, hshows, (h.spans.replace _).stay hinstr hleaves, hfirst, hstart, ?_, ?_, ?_⟩
  · rw [hblock]
    exact h.offset_eq
  · have hlt : blockStart code i ≤ i := lastCut_le _ code i
    rw [hblock, hnext]
    exact iff_of_true (by simp [Span.push]) (Nat.lt_succ_of_le hlt)
  · intro y hy
    rw [hnext]
    rcases List.mem_append.mp hy with hy | hy
    · have hlt := h.placed y hy
      omega
    · obtain rfl := List.mem_singleton.mp hy
      exact Int.ofNat_lt.mpr (Nat.lt_succ_of_le hle)

/-- An instruction that ends a statement and leaves its block. -/
theorem close (hends : instr.opcode.endsStatement = true) (hleaves : instr.opcode.leaves = true)
    (hedges : ∀ o ∈ operands, ∃ e target, o = .edge e target)
    (hfold : s.fold n kind operands = .ok s') (isLast : Bool) :
    ∃ s'', (s'.finish i).leave i isLast = .ok s'' ∧ Passed code i asked isLast s'' := by
  obtain ⟨hfirst, hstart, t, rfl, hshows⟩ := h.append hinstr hends hfold
  have hle : statementStart code i ≤ i := lastCut_le _ code i
  have hspans : Spans code i asked done (cur.push (statementStart code i) t) ahead :=
    h.spans.replace _
  have hclosed : (cur.push (statementStart code i) t).Closed := ⟨cur.entries, _, rfl, hedges⟩
  cases isLast with
  | true => exact ⟨s'.finish i, rfl, done, _, ahead, hshows, hspans, hclosed⟩
  | false =>
      have htarget : IsTarget code (i + 1 : Nat) := (IsTarget.succ_iff hinstr).mpr hleaves
      have hends' : (cur.push (statementStart code i) t).EndsAt (statementStart code i) := by
        refine ⟨?_, cur.entries, t, rfl, h.placed⟩
        exact h.offset_eq ▸ Int.ofNat_le.mpr (blockStart_le_statementStart code i)
      -- The block behind is found, or made behind the one that was left.
      obtain ⟨b, g', done', ahead', hlook, hshows', hspans'⟩ :=
        hshows.lookup_returns hspans (Or.inl htarget) (by
          intro y hy
          rcases List.mem_append.mp hy with hy | hy
          · exact h.placed_le y hy
          · obtain rfl := List.mem_singleton.mp hy
            exact Int.ofNat_le.mpr hle) (by
          by_cases hasked : ((i + 1 : Nat) : Int) ∈ asked
          · exact Or.inr (Or.inl hasked)
          · refine Or.inr (Or.inr ⟨by simp [Span.push], ?_⟩)
            intro other hother
            have hne : other ≠ (i + 1 : Nat) := by
              rintro rfl
              exact hasked hother
            omega)
      obtain ⟨next, rest, rfl, hnext⟩ := hspans'.exists_next (by simp)
      obtain ⟨hblt, hboffset⟩ := hshows.grown.blockAt_offset hlook
      have hblock : blockStart code (i + 1) = i + 1 := lastCut_cut hinstr hleaves
      have hstatement : statementStart code (i + 1) = i + 1 := lastCut_cut hinstr hends
      have hempty : next.entries = [] := hspans'.ahead_empty next (by simp)
      refine ⟨{ s'.finish i with graph := g', block := b }, ?_,
        done' ++ [cur.push (statementStart code i) t], next, rest, ?_⟩
      · simp only [Importer.leave, Importer.target, hfirst, hlook]
        rfl
      · refine {
          shows := hshows'.advance hspans'.rising hblt (hboffset.trans hnext.symm)
          spans := (hspans'.advance hnext hclosed hends').forget (Int.le_refl _)
          first_eq := hfirst
          start_eq := hstart
          offset_eq := by rw [hnext, hblock]
          entries_ne_nil_iff := ?_
          placed := by simp [hempty] }
        rw [hblock, hstatement]
        exact iff_of_false (not_not.mpr hempty) (Nat.lt_irrefl _)

end

/-- The block that an operand of a jump names is looked up. -/
theorem edgeTo (hseam : IsSeam code i offset) {operands : List Literal} {k : Nat}
    (hoperand : operands[k]? = some (.num offset)) :
    (Answerable code i asked offset ∧ ∃ b s' done' ahead', s.edgeTo operands k = .ok (b, s') ∧
        Underway code i (offset :: asked) s' done' cur ahead') ∨
      (¬ Answerable code i asked offset ∧ s.edgeTo operands k = .error .emptyBlock) := by
  simp only [Importer.edgeTo, hoperand]
  exact h.target hseam

end

end Underway

/-- An instruction either is read, or is refused because one of the blocks it asks for cannot
be had. -/
def ReadOrRefused (code : List Instr) (i : Nat) (asked : List Int) (isLast : Bool) (instr : Instr)
    (s : Importer) : Prop :=
  (∃ s' asked', s.step i isLast instr = .ok s' ∧ Passed code i asked' isLast s' ∧
      asked' = instr.targets.reverse ++ asked ∧
      ∀ rest, Answered code asked (instr.targets.map (fun offset => (i, offset)) ++ rest) ↔
        Answered code asked' rest) ∨
    (s.step i isLast instr = .error .emptyBlock ∧
      ∀ rest, ¬ Answered code asked (instr.targets.map (fun offset => (i, offset)) ++ rest))

theorem Instr.targets_of_jmp {instr : Instr} (hop : instr.opcode = .jmp)
    (hlength : instr.targets.length = 1) :
    ∃ x, instr.targets = [x] ∧ instr.operands[0]? = some (.num x) := by
  obtain ⟨opcode, operands⟩ := instr
  obtain rfl : opcode = .jmp := hop
  match operands with
  | [] => cases hlength
  | .text _ :: _ => cases hlength
  | .num x :: _ => exact ⟨x, rfl, rfl⟩

theorem Instr.targets_of_branch {instr : Instr} (hop : instr.opcode = .branch)
    (hlength : instr.targets.length = 2) :
    ∃ x y, instr.targets = [x, y] ∧ instr.operands[0]? = some (.num x) ∧
      instr.operands[1]? = some (.num y) := by
  obtain ⟨opcode, operands⟩ := instr
  obtain rfl : opcode = .branch := hop
  match operands with
  | [] => cases hlength
  | [.text _] => cases hlength
  | [.num _] => cases hlength
  | .text _ :: .text _ :: _ => cases hlength
  | .text _ :: .num _ :: _ => cases hlength
  | .num _ :: .text _ :: _ => cases hlength
  | .num x :: .num y :: _ => exact ⟨x, y, rfl, rfl, rfl⟩

/-- Every block of a graph is closed. -/
def Finished (g : Graph) : Prop :=
  g.Ended ∧ ∀ b ∈ g.blocksFrom 0, (g.span b).Closed

/-- When the program ends where nothing ahead was asked for, all blocks are closed. -/
theorem Shows.finished {code : List Instr} {i : Nat} {asked : List Int} {g : Graph}
    {current : BlockId} {done ahead : List Span} {cur : Span} (h : Shows g current done cur ahead)
    (hspans : Spans code i asked done cur ahead) (hclosed : cur.Closed)
    (hasked : ∀ offset ∈ asked, offset ≤ i) :
    Finished g := by
  refine ⟨h.ended, ?_⟩
  intro b hb
  have hmem : g.span b ∈ done ++ cur :: ahead := h.map_chain ▸ List.mem_map_of_mem hb
  rcases List.mem_append.mp hmem with hmem | hmem
  · exact hspans.closed _ hmem
  rcases List.mem_cons.mp hmem with heq | hmem
  · exact heq ▸ hclosed
  · have hgt := hspans.ahead_gt _ hmem
    have hle := hasked _ ((hspans.asked_iff _ hgt).mpr ⟨_, hmem, rfl⟩)
    exact absurd hgt (Int.not_lt.mpr hle)

namespace Underway

variable {code : List Instr} {i : Nat} {asked : List Int} {s s' : Importer}
  {done ahead : List Span} {cur : Span} {instr : Instr} {isLast : Bool}

/-- Which stores were read does not matter. -/
theorem noteStore (h : Underway code (i + 1) asked (s.finish i) done cur ahead) :
    Underway code (i + 1) asked ((s.noteStore i).finish i) done cur ahead := by
  rw [Importer.noteStore]
  cases hstack : s.stack with
  | nil => exact h
  | cons t rest =>
      simp only [Importer.finish, hstack] at h ⊢
      exact { h with }

/-- An instruction that asks for no block. -/
theorem readOrRefused_of_targets_eq_nil (htargets : instr.targets = [])
    (hstep : s.step i isLast instr = .ok s') (hpassed : Passed code i asked isLast s') :
    ReadOrRefused code i asked isLast instr s := by
  refine Or.inl ⟨s', asked, hstep, hpassed, ?_, ?_⟩
  · rw [htargets]
    rfl
  · intro rest
    rw [htargets]
    rfl

/-- Reading one instruction. -/
theorem step (h : Underway code i asked s done cur ahead)
    (hheight : (s.stack.length : Int) = depth (code.take i)) (hinstr : code[i]? = some instr)
    (hfits : instr.FitsAt code i) (hseams : ∀ offset ∈ instr.targets, IsSeam code i offset)
    (hlast : isLast = true → instr.opcode.leaves = true) :
    ReadOrRefused code i asked isLast instr s := by
  have hnotLast : instr.opcode.leaves = false → isLast = false := by
    intro hstay
    by_contra hnot
    exact Bool.false_ne_true (hstay.symm.trans (hlast (by simpa using hnot)))
  have hcount := hfits.targets_length
  cases hop : instr.opcode with
  | other name =>
      have hknown := hfits.known
      rw [hop] at hknown
      cases hknown
  | ldLocal | push | binary op =>
      obtain rfl := hnotLast (by rw [hop]; rfl)
      obtain ⟨kind, operands, hcomputes⟩ :=
        Importer.exists_computes hfits.known (by rw [hop]; rfl)
      obtain ⟨s', hfold⟩ := hfits.exists_fold hheight kind operands
      have hpassed : Passed code i asked false s' := ⟨done, cur, ahead,
        h.value hinstr (by rw [hop]; rfl) (by rw [hop]; rfl) hfold⟩
      exact readOrRefused_of_targets_eq_nil (by simp [Instr.targets, hop])
        (Importer.Stepped.value hcomputes hfold).step_eq hpassed
  | stLocal =>
      obtain rfl := hnotLast (by rw [hop]; rfl)
      obtain ⟨s', hfold⟩ := hfits.exists_fold hheight .stLocal (instr.operands.map .literal)
      obtain ⟨cur', hread⟩ := h.finish hinstr (by rw [hop]; rfl) (by rw [hop]; rfl) hfold
      have hempty : ((s'.noteStore i).finish i).stack = [] := by
        rw [Importer.finish_noteStore_stack]
        exact hfits.finish_stack hheight hinstr (by rw [hop]; rfl) hfold
      rw [hop] at hfold
      exact readOrRefused_of_targets_eq_nil (by simp [Instr.targets, hop])
        (Importer.Stepped.stLocal hop hfold hempty).step_eq ⟨done, cur', ahead, hread.noteStore⟩
  | pop =>
      obtain rfl := hnotLast (by rw [hop]; rfl)
      obtain ⟨s', hfold⟩ := hfits.exists_fold hheight .discard []
      obtain ⟨cur', hread⟩ := h.finish hinstr (by rw [hop]; rfl) (by rw [hop]; rfl) hfold
      have hstack := hfits.finish_stack hheight hinstr (by rw [hop]; rfl) hfold
      rw [hop] at hfold
      exact readOrRefused_of_targets_eq_nil (by simp [Instr.targets, hop])
        (Importer.Stepped.pop hop hfold hstack).step_eq ⟨done, cur', ahead, hread⟩
  | ret =>
      obtain ⟨s', hfold⟩ := hfits.exists_fold hheight .ret []
      obtain ⟨s'', hleave, hpassed⟩ :=
        h.close hinstr (by rw [hop]; rfl) (by rw [hop]; rfl) (by simp)
        hfold isLast
      rw [hop] at hfold
      exact readOrRefused_of_targets_eq_nil (by simp [Instr.targets, hop])
        (Importer.Stepped.ret hop hfold hleave).step_eq hpassed
  | jmp =>
      rw [hop] at hcount
      obtain ⟨x, htargets, hoperand⟩ := Instr.targets_of_jmp hop hcount
      rw [ReadOrRefused, htargets]
      rcases h.edgeTo (hseams x (by simp [htargets])) hoperand with
        ⟨hserved, b, s₁, done₁, ahead₁, hedge, h₁⟩ | ⟨hrefused, hedge⟩
      · rw [← Importer.edgeTo_stack hedge] at hheight
        obtain ⟨s', hfold⟩ := hfits.exists_fold (s := (s₁.newEdge b).2) hheight .jmp
          [(s₁.newEdge b).1]
        have hstack := hfits.finish_stack (s := (s₁.newEdge b).2) hheight hinstr (by rw [hop]; rfl)
          hfold
        obtain ⟨s'', hleave, hpassed⟩ := (h₁.newEdge b).close hinstr (by rw [hop]; rfl)
          (by rw [hop]; rfl) (fun o ho => ⟨_, b, List.mem_singleton.mp ho⟩) hfold isLast
        refine Or.inl ⟨s'', [x] ++ asked, ?_, hpassed, rfl, fun rest => ?_⟩
        · rw [hop] at hfold
          exact (Importer.Stepped.jmp hop hedge hfold hstack hleave).step_eq
        · exact and_iff_right hserved
      · refine Or.inr ⟨?_, fun rest hanswered => hrefused hanswered.1⟩
        simp only [Importer.step, hop, hedge]
        rfl
  | branch =>
      rw [hop] at hcount
      obtain ⟨x, y, htargets, hx, hy⟩ := Instr.targets_of_branch hop hcount
      rw [ReadOrRefused, htargets]
      rcases h.edgeTo (hseams x (by simp [htargets])) hx with
        ⟨hserved, yes, s₁, done₁, ahead₁, hyes, h₁⟩ | ⟨hrefused, hyes⟩
      · rcases h₁.edgeTo (hseams y (by simp [htargets])) hy with
          ⟨hserved₁, no, s₂, done₂, ahead₂, hno, h₂⟩ | ⟨hrefused, hno⟩
        · rw [← Importer.edgeTo_stack hyes, ← Importer.edgeTo_stack hno] at hheight
          obtain ⟨s', hfold⟩ := hfits.exists_fold (s := ((s₂.newEdge yes).2.newEdge no).2) hheight
            .branch [(s₂.newEdge yes).1, ((s₂.newEdge yes).2.newEdge no).1]
          have hstack := hfits.finish_stack (s := ((s₂.newEdge yes).2.newEdge no).2) hheight hinstr
            (by rw [hop]; rfl) hfold
          obtain ⟨s'', hleave, hpassed⟩ := ((h₂.newEdge yes).newEdge no).close hinstr
            (by rw [hop]; rfl) (by rw [hop]; rfl) (by
              rintro o (_ | ⟨_, _ | ⟨_, ⟨⟩⟩⟩)
              · exact ⟨_, yes, rfl⟩
              · exact ⟨_, no, rfl⟩) hfold isLast
          refine Or.inl ⟨s'', [y, x] ++ asked, ?_, hpassed, rfl, fun rest => ?_⟩
          · rw [hop] at hfold
            exact (Importer.Stepped.branch hop hyes hno hfold hstack hleave).step_eq
          · exact (and_iff_right hserved).trans (and_iff_right hserved₁)
        · refine Or.inr ⟨?_, fun rest hanswered => hrefused hanswered.2.1⟩
          simp only [Importer.step, hop, hyes, ok_bind, hno]
          rfl
      · refine Or.inr ⟨?_, fun rest hanswered => hrefused hanswered.1⟩
        simp only [Importer.step, hop, hyes]
        rfl

theorem run {rest : List Instr} (h : Underway code i asked s done cur ahead)
    (hheight : (s.stack.length : Int) = depth (code.take i))
    (hfits : ∀ (j : Nat) (instr : Instr), code[j]? = some instr → instr.FitsAt code j)
    (hseams : ∀ (j : Nat) (instr : Instr), code[j]? = some instr →
      ∀ offset ∈ instr.targets, IsSeam code j offset)
    (hleaves : (code.getLast?).any (fun instr => instr.opcode.leaves) = true)
    (hasked : ∀ offset ∈ asked, offset < code.length)
    (hrest : code.drop i = rest) (hne : rest ≠ []) :
    (Answered code asked (requestsFrom i rest) ∧ ∃ s', s.run i rest = .ok s' ∧ Finished s'.graph) ∨
      (¬ Answered code asked (requestsFrom i rest) ∧ s.run i rest = .error .emptyBlock) := by
  induction rest generalizing i asked s done cur ahead with
  | nil => exact absurd rfl hne
  | cons instr rest ih =>
      obtain ⟨hinstr, hdrop⟩ := drop_cases hrest
      have hlast := leaves_of_isEmpty hleaves hrest
      have hrequests : requestsFrom i (instr :: rest) =
          instr.targets.map (fun offset => (i, offset)) ++ requestsFrom (i + 1) rest := by
        rw [requestsFrom, List.zipIdx_cons, List.flatMap_cons]
        rfl
      rw [hrequests, Importer.run]
      rcases h.step hheight hinstr (hfits i instr hinstr) (hseams i instr hinstr) hlast with
        ⟨s₁, asked₁, hstep, hpassed, hasked₁, hanswered⟩ | ⟨hstep, hrefused⟩
      · have hbound : ∀ offset ∈ asked₁, offset < code.length := by
          intro offset hoffset
          rw [hasked₁] at hoffset
          rcases List.mem_append.mp hoffset with hoffset | hoffset
          · exact ((hfits i instr hinstr).targets_start offset (List.mem_reverse.mp hoffset)).1
          · exact hasked offset hoffset
        rw [hanswered, hstep, ok_bind]
        obtain ⟨done₁, cur₁, ahead₁, hpassed⟩ := hpassed
        cases rest with
        | nil =>
            obtain ⟨hshows, hspans, hclosed⟩ := hpassed
            refine Or.inl ⟨trivial, s₁, rfl, hshows.finished hspans hclosed ?_⟩
            have hlength := List.drop_eq_nil_iff.mp hdrop
            intro offset hoffset
            have hlt := hbound offset hoffset
            omega
        | cons next rest =>
            exact ih hpassed (Importer.step_depth hinstr hheight hstep) hbound hdrop
              (List.cons_ne_nil next rest)
      · refine Or.inr ⟨hrefused _, ?_⟩
        rw [hstep]
        rfl

/-- Nothing was read yet. -/
theorem start (code : List Instr) :
    Underway code 0 [] .fresh [] ⟨0, []⟩ [] := by
  have hlayout := (ReadSoFar.start code).layout
  have hspan : Importer.fresh.graph.span 0 = ⟨0, []⟩ := by
    rw [Graph.span, hlayout.zero_offset, (Graph.entries_eq_nil_iff hlayout.linked).mpr]
    rw [Importer.fresh, Graph.block_newChain]
  refine {
    shows := ⟨.fresh, hlayout.ended, [], [], hlayout.chain, rfl, hspan, rfl⟩
    spans := ?_
    first_eq := rfl
    start_eq := rfl
    offset_eq := rfl
    entries_ne_nil_iff := by simp [blockStart, statementStart, lastCut]
    placed := by simp }
  refine {
    rising := List.pairwise_singleton _ _
    current_le := Int.le_refl 0
    ahead_empty := by simp
    ahead_gt := by simp
    ahead_isTarget := by simp
    asked_iff := by simp
    target_made := ?_
    closed := by simp
    exit_made := by simp }
  intro offset hle htarget
  exact ⟨⟨0, []⟩, by simp, Int.le_antisymm htarget.nonneg hle⟩

end Underway

/-! ## Where reading stops -/

namespace Importer

variable {s s' : Importer} {i : Nat} {isLast : Bool}
  {instr : Instr} {code rest : List Instr} {offset : Int} {fault : Fault}

/-- A look-up stops in a block without statements, or between two statements. -/
theorem target_error (h : s.target offset = .error fault) :
    fault = .emptyBlock ∨ fault = .betweenStatements := by
  rw [target, Graph.blockAt_apply] at h
  cases hplace : s.graph.locate s.first offset with
  | ok place =>
      rw [hplace] at h
      cases place <;> cases h
  | error other =>
      rw [hplace] at h
      obtain rfl : other = fault := Except.error.inj h
      simp only [Graph.locate] at hplace
      split at hplace
      · cases hplace
      · split at hplace
        · exact Or.inl (Except.error.inj hplace).symm
        · split at hplace
          · cases hplace
          · split at hplace
            · exact Or.inr (Except.error.inj hplace).symm
            · cases hplace

theorem leave_error (h : s.leave i isLast = .error fault) :
    fault = .emptyBlock ∨ fault = .betweenStatements := by
  rw [leave] at h
  split at h
  · cases h
  · rcases exists_of_bind_eq_error h with h | ⟨x, -, h⟩
    · exact target_error h
    · cases h

/-- An instruction that fits is refused only for the blocks that it asks for. -/
theorem step_error (hinstr : code[i]? = some instr) (hfits : instr.FitsAt code i)
    (hheight : (s.stack.length : Int) = depth (code.take i))
    (hlast : isLast = true → instr.opcode.leaves = true)
    (h : s.step i isLast instr = .error fault) :
    fault = .emptyBlock ∨ fault = .betweenStatements := by
  have hcount := hfits.targets_length
  have hproceed : ∀ {s₁ : Importer}, instr.opcode.leaves = false →
      s₁.proceed isLast ≠ .error fault := by
    intro s₁ hstay
    have hnot : isLast ≠ true := fun hisLast =>
      Bool.false_ne_true (hstay.symm.trans (hlast hisLast))
    rw [proceed, if_neg hnot]
    simp
  have hfold : ∀ {s₀ : Importer} {kind operands}, s₀.stack = s.stack →
      s₀.fold instr.opcode.takes kind operands ≠ .error fault := by
    intro s₀ kind operands hstack herror
    obtain ⟨s₁, hs₁⟩ := hfits.exists_fold (hstack ▸ hheight) kind operands
    rw [hs₁] at herror
    cases herror
  have hclear : ∀ {s₀ s₁ : Importer} {kind operands},
      s₀.fold instr.opcode.takes kind operands = .ok s₁ → s₀.stack = s.stack →
      instr.opcode.endsStatement = true → (s₁.finish i).stack = [] :=
    fun hs₁ hstack hends => hfits.finish_stack (hstack ▸ hheight) hinstr hends hs₁
  cases hop : instr.opcode with
  | other name =>
      have hknown := hfits.known
      rw [hop] at hknown
      cases hknown
  | ldLocal | push | binary op =>
      rw [hop] at hfold hproceed
      simp only [step, hop] at h
      rcases exists_of_bind_eq_error h with h | ⟨s₁, -, h⟩
      · exact absurd h (hfold rfl)
      · exact absurd h (hproceed rfl)
  | stLocal | pop =>
      rw [hop] at hfold hproceed hclear
      simp only [step, hop] at h
      rcases exists_of_bind_eq_error h with h | ⟨s₁, hs₁, h⟩
      · exact absurd h (hfold rfl)
      · have hempty := hclear hs₁ rfl rfl
        rw [requireEmpty_eq_ok (by simpa only [finish_noteStore_stack] using hempty)] at h
        exact absurd h (hproceed rfl)
  | ret =>
      rw [hop] at hfold
      simp only [step, hop] at h
      rcases exists_of_bind_eq_error h with h | ⟨s₁, -, h⟩
      · exact absurd h (hfold rfl)
      · exact leave_error h
  | jmp =>
      rw [hop] at hfold hclear hcount
      obtain ⟨x, -, hoperand⟩ := Instr.targets_of_jmp hop hcount
      simp only [step, hop] at h
      rcases exists_of_bind_eq_error h with h | ⟨⟨b, s₁⟩, hedge, h⟩
      · rw [edgeTo, hoperand] at h
        exact target_error h
      obtain ⟨g, rfl⟩ := edgeTo_eq hedge
      rcases exists_of_bind_eq_error h with h | ⟨s₂, hs₂, h⟩
      · exact absurd h (hfold rfl)
      rw [requireEmpty_eq_ok (hclear hs₂ rfl rfl)] at h
      exact leave_error h
  | branch =>
      rw [hop] at hfold hclear hcount
      obtain ⟨x, y, -, hx, hy⟩ := Instr.targets_of_branch hop hcount
      simp only [step, hop] at h
      rcases exists_of_bind_eq_error h with h | ⟨⟨yes, s₁⟩, hyes, h⟩
      · rw [edgeTo, hx] at h
        exact target_error h
      obtain ⟨g, rfl⟩ := edgeTo_eq hyes
      rcases exists_of_bind_eq_error h with h | ⟨⟨no, s₂⟩, hno, h⟩
      · rw [edgeTo, hy] at h
        exact target_error h
      obtain ⟨g, rfl⟩ := edgeTo_eq hno
      rcases exists_of_bind_eq_error h with h | ⟨s₃, hs₃, h⟩
      · exact absurd h (hfold rfl)
      rw [requireEmpty_eq_ok (hclear hs₃ rfl rfl)] at h
      exact leave_error h

theorem run_error
    (hfits : ∀ (j : Nat) (instr : Instr), code[j]? = some instr → instr.FitsAt code j)
    (hleaves : (code.getLast?).any (fun instr => instr.opcode.leaves) = true)
    (hheight : (s.stack.length : Int) = depth (code.take i)) (hrest : code.drop i = rest)
    (h : s.run i rest = .error fault) : fault = .emptyBlock ∨ fault = .betweenStatements := by
  induction rest generalizing i s with
  | nil => cases h
  | cons instr rest ih =>
      obtain ⟨hinstr, hdrop⟩ := drop_cases hrest
      rcases exists_of_bind_eq_error h with h | ⟨s₁, hstep, h⟩
      · exact step_error hinstr (hfits i instr hinstr) hheight (leaves_of_isEmpty hleaves hrest) h
      · exact ih (step_depth hinstr hheight hstep) hdrop h

end Importer

/-! ## Predecessors -/

/-- All operands of a terminator are visited when they are edges. -/
theorem eachEdge_returns {σ : Type} {visit : EdgeId → BlockId → EStateM Fault σ Unit}
    (hvisit : ∀ e target s, ∃ s', visit e target s = .ok () s') {operands : List Operand}
    (hedges : ∀ o ∈ operands, ∃ e target, o = .edge e target) (s : σ) :
    ∃ s', eachEdge visit operands s = .ok () s' := by
  induction operands generalizing s with
  | nil => exact ⟨s, rfl⟩
  | cons o operands ih =>
      obtain ⟨e, target, rfl⟩ := hedges o (by simp)
      obtain ⟨s₁, hfirst⟩ := hvisit e target s
      obtain ⟨s₂, hrest⟩ := ih (fun o ho => hedges o (by simp [ho])) s₁
      exact ⟨s₂, (bind_apply_of_ok hfirst).trans hrest⟩

/-- The predecessors of closed blocks can be noted. -/
theorem notePredecessors_returns {g : Graph} (he : g.Ended) {bs : List BlockId}
    (hclosed : ∀ b ∈ bs, (g.span b).Closed) {n : Notes} (hn : n.Fresh) :
    ∃ n', Ir.notePredecessors g bs n = .ok () n' := by
  induction bs generalizing n with
  | nil => exact ⟨n, rfl⟩
  | cons b bs ih =>
      obtain ⟨before, y, hentries, hedges⟩ := hclosed b (by simp)
      obtain ⟨front, rear, hstmts, -, hrear⟩ := List.map_eq_append_iff.mp hentries
      obtain ⟨s, rear, rfl, rfl, hnil⟩ := List.map_eq_cons_iff.mp hrear
      obtain rfl := List.map_eq_nil_iff.mp hnil
      have hterminator : g.terminator b = .ok (g.stmt s).tree := by
        rw [Graph.terminator, he b, hstmts, List.getLast?_concat]
      have hoperands : n.operands (g.stmt s).tree = (g.stmt s).tree.operands := by
        rw [Notes.operands, hn.stored_eq]
        exact List.append_nil _
      obtain ⟨n₁, hfirst⟩ : ∃ n₁, Ir.notePredecessor g b n = .ok () n₁ := by
        let visit (_ : EdgeId) (target : BlockId) : EStateM Fault Notes Unit :=
          modify fun n => n.modifyBlock target fun note =>
            { note with predecessors := note.predecessors ++ [b] }
        have hvisit : ∀ e target n, ∃ n', visit e target n = .ok () n' := fun _ _ _ => ⟨_, rfl⟩
        obtain ⟨n₁, hvisit⟩ := eachEdge_returns hvisit (hoperands ▸ hedges) n
        refine ⟨n₁, ?_⟩
        rw [Ir.notePredecessor]
        refine (bind_apply_of_ok rfl).trans ?_
        simp only [Ir.eachExit, hterminator]
        exact hvisit
      obtain ⟨n₂, hrest⟩ := ih (fun b hb => hclosed b (by simp [hb])) (hn.notePredecessor hfirst)
      exact ⟨n₂, (bind_apply_of_ok hfirst).trans hrest⟩

theorem eachEdge_error {σ : Type} {visit : EdgeId → BlockId → EStateM Fault σ Unit}
    (hvisit : ∀ e target s, ∃ s', visit e target s = .ok () s') {operands : List Operand}
    {s s' : σ} {fault : Fault} (h : eachEdge visit operands s = .error fault s') :
    fault = .edgeExpected := by
  induction operands generalizing s with
  | nil => cases h
  | cons o operands ih =>
      cases o with
      | edge e target =>
          obtain ⟨s₁, hs₁⟩ := hvisit e target s
          rw [eachEdge, bind_apply_of_ok hs₁] at h
          exact ih h
      | literal l => exact (EStateM.Result.error.inj h).1.symm
      | operator op => exact (EStateM.Result.error.inj h).1.symm

/-- Predecessors cannot be noted behind a block without statements or without edges. -/
theorem notePredecessors_error {g : Graph} {bs : List BlockId} {n n' : Notes} {fault : Fault}
    (h : Ir.notePredecessors g bs n = .error fault n') :
    fault = .noTerminator ∨ fault = .edgeExpected := by
  induction bs generalizing n with
  | nil => cases h
  | cons b bs ih =>
      rcases bind_apply_eq_error_iff.mp h with h | ⟨⟨⟩, n₁, -, h⟩
      · rw [Ir.notePredecessor] at h
        rcases bind_apply_eq_error_iff.mp h with h | ⟨n₁, n₂, -, h⟩
        · cases h
        · rw [Ir.eachExit] at h
          cases hlast : g.terminator b with
          | ok t =>
              rw [hlast] at h
              exact Or.inr (eachEdge_error (fun _ _ _ => ⟨_, rfl⟩) h)
          | error other =>
              rw [hlast] at h
              rw [← (EStateM.Result.error.inj h).1]
              rw [Graph.terminator] at hlast
              split at hlast
              · cases hlast
              · exact Or.inl (Except.error.inj hlast).symm
      · exact ih h

/-- Reading a program into a graph of its own, in two parts. -/
theorem Program.import?_eq (p : Program) :
    p.import? =
      Importer.run 0 p.instrs .fresh >>= fun s =>
        match (⟨0, p.locals, 0⟩ : Ir).recomputePredecessors s.graph {} with
        | .error fault _ => .error fault
        | .ok _ n => .ok {
            graph := s.graph.shareStores id [] s.stores
            notes := ((⟨0, p.locals, 0⟩ : Ir).reindex s.graph n).2
            ir := ((⟨0, p.locals, 0⟩ : Ir).reindex s.graph n).1
            stores := [] ++ s.stores } :=
  rfl

/-- A well-formed program is refused only for its blocks: a look-up lands in an empty block or
between statements, or a block has got no statement, or none with edges, at its end. -/
theorem Program.WellFormed.fault_mem {p : Program} (hp : p.WellFormed) {fault : Fault}
    (h : p.import? = .error fault) :
    fault ∈ [.emptyBlock, .betweenStatements, .noTerminator, .edgeExpected] := by
  rw [Program.import?_eq] at h
  rcases exists_of_bind_eq_error h with h | ⟨s, -, h⟩
  · rcases Importer.run_error hp.fitsAt hp.last_leaves rfl List.drop_zero h with rfl | rfl <;> simp
  · split at h
    · next other n hpred =>
        obtain rfl : other = fault := Except.error.inj h
        rcases notePredecessors_error hpred with rfl | rfl <;> simp
    · cases h

/-- A well-formed program is read or refused for its blocks.  If its jumps lead to seams, it is
read if and only if all its look-ups can be answered; otherwise it is refused because a look-up
lands in an empty block. -/
theorem Program.import?_returns_iff {p : Program} (hp : p.WellFormed) :
    (JumpsToSeams p.instrs →
      ((∃ m, p.import? = .ok m) ↔ Answered p.instrs [] (requestsFrom 0 p.instrs)) ∧
        ((∃ m, p.import? = .ok m) ∨ p.import? = .error .emptyBlock)) ∧
      ((∃ m, p.import? = .ok m) ∨
        ∃ fault ∈ [.emptyBlock, .betweenStatements, .noTerminator, .edgeExpected],
          p.import? = .error fault) := by
  refine ⟨fun hseams => ?_, ?_⟩
  · have hne : p.instrs ≠ [] := by
      intro hnil
      have hlast := hp.last_leaves
      rw [hnil] at hlast
      cases hlast
    have hrun := (Underway.start p.instrs).run rfl hp.fitsAt
      (fun j instr hinstr => hseams (instr, j) (List.mk_mem_zipIdx_iff_getElem?.mpr hinstr))
      hp.last_leaves (by simp) List.drop_zero hne
    rcases hrun with ⟨hanswered, s, hrun, hended, hclosed⟩ | ⟨hrefused, hrun⟩
    · obtain ⟨n, hpred⟩ := notePredecessors_returns hended hclosed Notes.Fresh.empty
      have hreturns : ∃ m, p.import? = .ok m := by
        have hpred' : (⟨0, p.locals, 0⟩ : Ir).recomputePredecessors s.graph {} = .ok () n := hpred
        rw [Program.import?_eq, hrun, ok_bind, hpred']
        exact ⟨_, rfl⟩
      exact ⟨iff_of_true hreturns hanswered, Or.inl hreturns⟩
    · have hfault : p.import? = .error .emptyBlock := by
        rw [Program.import?_eq, hrun]
        rfl
      refine ⟨iff_of_false ?_ hrefused, Or.inr hfault⟩
      rintro ⟨m, hm⟩
      rw [hfault] at hm
      cases hm
  · cases himport : p.import? with
    | ok m => exact Or.inl ⟨m, rfl⟩
    | error fault => exact Or.inr ⟨fault, hp.fault_mem himport, rfl⟩

theorem Program.import?_returns_fibonacci :
    (Samples.fibonacci 7).WellFormed ∧ JumpsToSeams (Samples.fibonacci 7).instrs ∧
      ∃ m, (Samples.fibonacci 7).import? = .ok m := by
  have hp : (Samples.fibonacci 7).WellFormed := by decide +kernel
  have hseams : JumpsToSeams (Samples.fibonacci 7).instrs := by decide +kernel
  have hanswered : Answered (Samples.fibonacci 7).instrs []
      (requestsFrom 0 (Samples.fibonacci 7).instrs) := by decide +kernel
  exact ⟨hp, hseams, ((import?_returns_iff hp).1 hseams).1.mpr hanswered⟩

-- Jumps into the block that they belong to give the three other reasons.
example :
    let read (code : List Instr) := (⟨1, code⟩ : Program).import?.map fun _ => ()
    let discard := [Samples.instr .push [0], Samples.instr .pop]
    let store := [Samples.instr .push [0], Samples.instr .stLocal [0]]
    read (discard ++ [Samples.instr .jmp [2]]) = .error .noTerminator ∧
      read (discard ++ store ++ [Samples.instr .jmp [2]]) = .error .edgeExpected ∧
      read (discard ++ discard ++ store ++ [Samples.instr .jmp [2], Samples.instr .jmp [4]]) =
        .error .betweenStatements := by
  decide +kernel

/-- A jump over nothing: when the block behind it is looked up, the block to which the jump
belongs has no statement yet. -/
theorem Program.import?_refuses_jump_to_next :
    let p : Program := ⟨0, [Samples.instr .jmp [1], Samples.instr .push [0], Samples.instr .ret]⟩
    p.WellFormed ∧ p.import? = .error .emptyBlock :=
  ⟨by decide +kernel, rfl⟩

end LinearScan
