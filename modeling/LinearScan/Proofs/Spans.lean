import LinearScan.Proofs.Seams

/-!
# The chain of blocks while a program is read

When all jumps lead to seams, the chain of blocks keeps one shape while a program is read
(`Spans`): the blocks that were left end with the statement that left them, and the blocks
ahead are empty.  A look-up of a seam keeps this shape, and it fails if and only if it lands in
a block that has no statement yet.
-/

namespace LinearScan

/-! ## Where statements and blocks start -/

/-- Whether an instruction ends a statement. -/
def Opcode.endsStatement : Opcode → Bool
  | .stLocal | .pop | .jmp | .branch | .ret => true
  | _ => false

/-- A statement starts at `offset`: it is the start of the program, or directly behind an
instruction that ends a statement. -/
def StartsStatement (code : List Instr) (offset : Int) : Prop :=
  offset = 0 ∨
    0 < offset ∧ (code[(offset - 1).toNat]?).any (fun instr => instr.opcode.endsStatement) = true

instance (code : List Instr) (offset : Int) : Decidable (StartsStatement code offset) :=
  inferInstanceAs (Decidable (_ ∨ _))

/-- The last offset up to `i` that is the start of the code or directly behind an
instruction with the property `p`. -/
def lastCut (p : Opcode → Bool) (code : List Instr) : Nat → Nat
  | 0 => 0
  | i + 1 => if (code[i]?).any (fun instr => p instr.opcode) then i + 1 else lastCut p code i

/-- Where the statement starts to which the instruction at `i` belongs. -/
def statementStart (code : List Instr) (i : Nat) : Nat :=
  lastCut Opcode.endsStatement code i

/-- Where the block starts to which the instruction at `i` belongs, as far as the exits before
it tell. -/
def blockStart (code : List Instr) (i : Nat) : Nat :=
  lastCut Opcode.leaves code i

/-- An instruction at `i` that jumps to `offset` finds a seam there: control may come there
anyway, or it is the statement of an exit before `i`. -/
def IsSeam (code : List Instr) (i : Nat) (offset : Int) : Prop :=
  IsTarget code offset ∨
    ∃ e ∈ List.range i, (code[e]?).any (fun instr => instr.opcode.leaves) = true ∧
      offset = statementStart code e

instance (code : List Instr) (i : Nat) (offset : Int) : Decidable (IsSeam code i offset) :=
  inferInstanceAs (Decidable (_ ∨ _))

section Cuts

variable {p : Opcode → Bool} {code : List Instr} {i : Nat} {instr : Instr} {offset : Int}

theorem lastCut_le (p : Opcode → Bool) (code : List Instr) (i : Nat) : lastCut p code i ≤ i := by
  induction i with
  | zero => exact Nat.le_refl 0
  | succ i ih =>
      rw [lastCut]
      split
      · exact Nat.le_refl _
      · exact Nat.le_succ_of_le ih

theorem lastCut_cut (hinstr : code[i]? = some instr) (hcut : p instr.opcode = true) :
    lastCut p code (i + 1) = i + 1 := by
  rw [lastCut, hinstr]
  exact if_pos hcut

theorem lastCut_stay (hinstr : code[i]? = some instr) (hstay : p instr.opcode = false) :
    lastCut p code (i + 1) = lastCut p code i := by
  rw [lastCut, hinstr]
  exact if_neg (Bool.eq_false_iff.mp hstay)

/-- An instruction that leaves its block ends a statement. -/
theorem blockStart_le_statementStart (code : List Instr) (i : Nat) :
    blockStart code i ≤ statementStart code i := by
  induction i with
  | zero => exact Nat.le_refl 0
  | succ i ih =>
      rw [blockStart, statementStart, lastCut, lastCut]
      cases code[i]? with
      | none => exact ih
      | some instr =>
          have hle : lastCut Opcode.leaves code i ≤ i := lastCut_le _ code i
          cases hop : instr.opcode <;>
            simp only [Option.any_some, hop, Opcode.leaves, Opcode.endsStatement] <;>
            first | exact ih | exact Nat.le_refl _ | exact Nat.le_succ_of_le hle

theorem IsSeam.nonneg (h : IsSeam code i offset) : 0 ≤ offset := by
  rcases h with h | ⟨e, -, -, rfl⟩
  · exact h.nonneg
  · exact Int.natCast_nonneg _

/-- A seam ahead is a place to which control may come anyway. -/
theorem IsSeam.isTarget (h : IsSeam code i offset) (hlt : (i : Int) < offset) :
    IsTarget code offset := by
  rcases h with h | ⟨e, he, -, rfl⟩
  · exact h
  · have hle : statementStart code e ≤ e := lastCut_le _ code e
    have hei := List.mem_range.mp he
    omega

end Cuts

/-! ## The shape of the spans -/

/-- The span ends with the statement at `place`, and this is its only statement there. -/
def Span.EndsAt (r : Span) (place : Int) : Prop :=
  r.offset ≤ place ∧ ∃ before t, r.entries = before ++ [(place, t)] ∧ ∀ y ∈ before, y.1 < place

/-- The operands of the last statement of a span are edges. -/
def Span.Closed (r : Span) : Prop :=
  ∃ before y, r.entries = before ++ [y] ∧ ∀ o ∈ y.2.operands, ∃ e target, o = .edge e target

/-- What the spans look like before the instruction at `i` is read, when the offsets `asked`
have been looked up: the blocks that were left are closed, those ahead are empty, and there is
one for each offset ahead that was looked up. -/
structure Spans
    (code : List Instr) (i : Nat) (asked : List Int) (done : List Span) (cur : Span)
    (ahead : List Span) : Prop where
  rising : (done ++ cur :: ahead).Pairwise fun r q => r.offset < q.offset
  current_le : cur.offset ≤ i
  ahead_empty : ∀ r ∈ ahead, r.entries = []
  ahead_gt : ∀ r ∈ ahead, (i : Int) < r.offset
  ahead_isTarget : ∀ r ∈ ahead, IsTarget code r.offset
  asked_iff : ∀ offset : Int, i < offset → (offset ∈ asked ↔ ∃ r ∈ ahead, r.offset = offset)
  target_made : ∀ offset : Int, offset ≤ i → IsTarget code offset →
    ∃ r ∈ done ++ [cur], r.offset = offset
  closed : ∀ r ∈ done, r.Closed
  exit_made : ∀ e : Nat, e < i → (code[e]?).any (fun instr => instr.opcode.leaves) = true →
    ∃ r ∈ done, r.EndsAt (statementStart code e) ∧
      ∀ q ∈ done ++ cur :: ahead, r.offset < q.offset → (e : Int) < q.offset

namespace Spans

variable {code : List Instr} {i : Nat} {asked : List Int} {done ahead : List Span} {cur : Span}
  {offset : Int} {instr : Instr}

/-- The current block gets other statements. -/
theorem replace (h : Spans code i asked done cur ahead) (entries : List (Int × Tree)) :
    Spans code i asked done ⟨cur.offset, entries⟩ ahead := by
  have hrising := h.rising
  refine {
    rising := ?_
    current_le := h.current_le
    ahead_empty := h.ahead_empty
    ahead_gt := h.ahead_gt
    ahead_isTarget := h.ahead_isTarget
    asked_iff := h.asked_iff
    target_made := ?_
    closed := h.closed
    exit_made := ?_ }
  · rw [List.pairwise_append, List.pairwise_cons] at hrising ⊢
    refine ⟨hrising.1, hrising.2.1, ?_⟩
    intro r hr q hq
    rcases List.mem_cons.mp hq with rfl | hq
    · exact hrising.2.2 r hr cur (by simp)
    · exact hrising.2.2 r hr q (by simp [hq])
  · intro x hx htarget
    obtain ⟨r, hr, rfl⟩ := h.target_made x hx htarget
    rcases List.mem_append.mp hr with hr | hr
    · exact ⟨r, by simp [hr], rfl⟩
    · obtain rfl := List.mem_singleton.mp hr
      exact ⟨⟨r.offset, entries⟩, by simp, rfl⟩
  · intro e he hleaves
    obtain ⟨r, hr, hends, hbehind⟩ := h.exit_made e he hleaves
    refine ⟨r, hr, hends, ?_⟩
    intro q hq hlt
    rcases List.mem_append.mp hq with hq | hq
    · exact hbehind q (by simp [hq]) hlt
    · rcases List.mem_cons.mp hq with rfl | hq
      · exact hbehind cur (by simp) hlt
      · exact hbehind q (by simp [hq]) hlt

/-- An offset is looked up for which there is nothing to do. -/
theorem ask (h : Spans code i asked done cur ahead) (hoffset : offset ≤ i ∨ offset ∈ asked) :
    Spans code i (offset :: asked) done cur ahead := by
  refine { h with asked_iff := ?_ }
  intro x hx
  rw [List.mem_cons, ← h.asked_iff x hx]
  constructor
  · rintro (rfl | hmem)
    · exact hoffset.resolve_left (Int.not_le.mpr hx)
    · exact hmem
  · exact Or.inr

/-- What was looked up up to `i` does not matter behind it. -/
theorem forget (h : Spans code i (offset :: asked) done cur ahead) (hoffset : offset ≤ i) :
    Spans code i asked done cur ahead := by
  refine { h with asked_iff := ?_ }
  intro x hx
  rw [← h.asked_iff x hx, List.mem_cons]
  constructor
  · exact Or.inr
  · rintro (rfl | hmem)
    · exact absurd hoffset (Int.not_le.mpr hx)
    · exact hmem

/-- An empty block is put in in front of those ahead. -/
theorem insert (h : Spans code i asked done cur ahead) (hlt : (i : Int) < offset)
    (htarget : IsTarget code offset) (hahead : ∀ r ∈ ahead, offset < r.offset) :
    Spans code i (offset :: asked) done cur (⟨offset, []⟩ :: ahead) := by
  have hrising := h.rising
  have hcur := h.current_le
  refine {
    rising := ?_
    current_le := hcur
    ahead_empty := List.forall_mem_cons.mpr ⟨rfl, h.ahead_empty⟩
    ahead_gt := List.forall_mem_cons.mpr ⟨hlt, h.ahead_gt⟩
    ahead_isTarget := List.forall_mem_cons.mpr ⟨htarget, h.ahead_isTarget⟩
    asked_iff := ?_
    target_made := h.target_made
    closed := h.closed
    exit_made := ?_ }
  · rw [List.pairwise_append, List.pairwise_cons] at hrising ⊢
    obtain ⟨hdone, ⟨hcurAhead, hrest⟩, hcross⟩ := hrising
    refine ⟨hdone, ⟨?_, List.pairwise_cons.mpr ⟨hahead, hrest⟩⟩, ?_⟩
    · exact List.forall_mem_cons.mpr ⟨Int.lt_of_le_of_lt hcur hlt, hcurAhead⟩
    · intro r hr
      have hrcur := hcross r hr cur (by simp)
      refine List.forall_mem_cons.mpr ⟨hrcur, List.forall_mem_cons.mpr ⟨?_, ?_⟩⟩
      · exact Int.lt_trans hrcur (Int.lt_of_le_of_lt hcur hlt)
      · intro q hq
        exact hcross r hr q (by simp [hq])
  · intro x hx
    rw [List.mem_cons, h.asked_iff x hx, List.exists_mem_cons_iff]
    exact or_congr_left eq_comm
  · intro e he hleaves
    obtain ⟨r, hr, hends, hbehind⟩ := h.exit_made e he hleaves
    refine ⟨r, hr, hends, ?_⟩
    intro q hq hrq
    rcases List.mem_append.mp hq with hq | hq
    · exact hbehind q (by simp [hq]) hrq
    · rcases List.mem_cons.mp hq with rfl | hq
      · exact hbehind q (by simp) hrq
      · rcases List.mem_cons.mp hq with rfl | hq
        · exact Int.lt_trans (Int.ofNat_lt.mpr he) hlt
        · exact hbehind q (by simp [hq]) hrq

/-- A block that was left is cut in two at its last statement. -/
theorem cut {before after : List Span} {r : Span} {init : List (Int × Tree)} {t jump : Tree}
    {place : Int} (h : Spans code i asked (before ++ r :: after) cur ahead)
    (hle : offset ≤ i) (hr : r.offset < offset)
    (hafter : ∀ q ∈ after ++ cur :: ahead, offset < q.offset)
    (hentries : r.entries = init ++ [(offset, t)])
    (hjump : ∀ o ∈ jump.operands, ∃ e target, o = .edge e target) :
    Spans code i (offset :: asked)
      (before ++ ⟨r.offset, init ++ [(place, jump)]⟩ :: ⟨offset, [(offset, t)]⟩ :: after)
      cur ahead := by
  have hrising := h.rising
  rw [List.append_assoc, List.cons_append, List.pairwise_append, List.pairwise_cons] at hrising
  obtain ⟨hbefore, ⟨hrAfter, hrest⟩, hcross⟩ := hrising
  have hask := h.ask (Or.inl hle)
  refine { hask with
    rising := ?_
    target_made := ?_
    closed := ?_
    exit_made := ?_ }
  · rw [List.append_assoc, List.cons_append, List.cons_append, List.pairwise_append,
      List.pairwise_cons, List.pairwise_cons]
    refine ⟨hbefore, ⟨List.forall_mem_cons.mpr ⟨hr, hrAfter⟩, hafter, hrest⟩, ?_⟩
    intro q hq
    have hqr := hcross q hq r (by simp)
    refine List.forall_mem_cons.mpr ⟨hqr, List.forall_mem_cons.mpr ⟨Int.lt_trans hqr hr, ?_⟩⟩
    intro q' hq'
    exact hcross q hq q' (List.mem_cons_of_mem r hq')
  · intro x hx htarget
    obtain ⟨q, hq, rfl⟩ := h.target_made x hx htarget
    simp only [List.mem_append, List.mem_cons] at hq
    rcases hq with (hq | rfl | hq) | hq
    · exact ⟨q, by simp [hq], rfl⟩
    · exact ⟨⟨q.offset, init ++ [(place, jump)]⟩, by simp, rfl⟩
    · exact ⟨q, by simp [hq], rfl⟩
    · exact ⟨q, by simp_all, rfl⟩
  · intro q hq
    simp only [List.mem_append, List.mem_cons] at hq
    rcases hq with hq | rfl | rfl | hq
    · exact h.closed q (by simp [hq])
    · exact ⟨init, (place, jump), rfl, hjump⟩
    · obtain ⟨init', y, hentries', hy⟩ := h.closed r (by simp)
      rw [hentries] at hentries'
      obtain ⟨-, hlast⟩ := List.append_inj' hentries' rfl
      obtain rfl : (offset, t) = y := by simpa using hlast
      exact ⟨[], (offset, t), rfl, hy⟩
    · exact h.closed q (by simp [hq])
  · intro e he hleaves
    obtain ⟨q, hq, hends, hbehind⟩ := h.exit_made e he hleaves
    -- A span that starts behind `low` now did so before, the two parts of `r` apart.
    have hnew : ∀ low, q.offset ≤ low →
        (low < r.offset → (e : Int) < r.offset) → (low < offset → (e : Int) < offset) →
        ∀ q' ∈ (before ++ ⟨r.offset, init ++ [(place, jump)]⟩ ::
            ⟨offset, [(offset, t)]⟩ :: after) ++ cur :: ahead,
          low < q'.offset → (e : Int) < q'.offset := by
      intro low hlow hfront hrear q' hq' hlt
      simp only [List.append_assoc, List.cons_append, List.mem_append, List.mem_cons] at hq'
      rcases hq' with hq' | rfl | rfl | hq'
      · exact hbehind q' (by simp [hq']) (Int.lt_of_le_of_lt hlow hlt)
      · exact hfront hlt
      · exact hrear hlt
      · refine hbehind q' ?_ (Int.lt_of_le_of_lt hlow hlt)
        rcases hq' with hq' | rfl | hq' <;> simp [*]
    simp only [List.mem_append, List.mem_cons] at hq
    rcases hq with hq | rfl | hq
    · have heq := hbehind r (by simp) (hcross q hq r (by simp))
      exact ⟨q, by simp [hq], hends, hnew q.offset (Int.le_refl _) (fun _ => heq)
        fun _ => Int.lt_trans heq hr⟩
    · obtain ⟨-, init', t', hentries', -⟩ := hends
      rw [hentries] at hentries'
      obtain ⟨-, hlast⟩ := List.append_inj' hentries' rfl
      obtain ⟨hplace, -⟩ := Prod.mk.inj (List.cons.inj hlast).1
      refine ⟨⟨offset, [(offset, t)]⟩, by simp, ⟨Int.le_of_eq hplace, [], t, ?_, by simp⟩,
        hnew offset (Int.le_of_lt hr) (fun hlt => ?_) fun hlt => ?_⟩
      · rw [hplace]
        rfl
      · exact absurd hlt (Int.lt_asymm hr)
      · exact absurd hlt (Int.lt_irrefl _)
    · have hqoffset := hafter q (by simp [hq])
      refine ⟨q, by simp [hq], hends, hnew q.offset (Int.le_refl _) (fun hlt => ?_) fun hlt => ?_⟩
      · exact absurd (Int.lt_trans hlt hr) (Int.lt_asymm hqoffset)
      · exact absurd hlt (Int.lt_asymm hqoffset)

/-- An instruction that stays in its block was read. -/
theorem stay (h : Spans code i asked done cur ahead) (hinstr : code[i]? = some instr)
    (hstay : instr.opcode.leaves = false) :
    Spans code (i + 1) asked done cur ahead := by
  have hnot : ¬ IsTarget code (i + 1 : Nat) := by
    rw [IsTarget.succ_iff hinstr, hstay]
    exact Bool.false_ne_true
  refine { h with
    current_le := ?_
    ahead_gt := ?_
    asked_iff := ?_
    target_made := ?_
    exit_made := ?_ }
  · have hcur := h.current_le
    omega
  · intro r hr
    have hgt := h.ahead_gt r hr
    have hne : r.offset ≠ (i + 1 : Nat) := by
      intro heq
      exact hnot (heq ▸ h.ahead_isTarget r hr)
    omega
  · intro x hx
    exact h.asked_iff x (by omega)
  · intro x hx htarget
    refine h.target_made x ?_ htarget
    have hne : x ≠ (i + 1 : Nat) := by
      rintro rfl
      exact hnot htarget
    omega
  · intro e he hleaves
    refine h.exit_made e ?_ hleaves
    have hne : e ≠ i := by
      rintro rfl
      rw [hinstr] at hleaves
      exact Bool.false_ne_true (hstay.symm.trans hleaves)
    omega

/-- The current block was left, and reading goes on with the one behind it. -/
theorem advance {next : Span} (h : Spans code i asked done cur (next :: ahead))
    (hnext : next.offset = (i + 1 : Nat)) (hclosed : cur.Closed)
    (hends : cur.EndsAt (statementStart code i)) :
    Spans code (i + 1) asked (done ++ [cur]) next ahead := by
  have hassoc : (done ++ [cur]) ++ next :: ahead = done ++ cur :: next :: ahead :=
    List.append_assoc done [cur] (next :: ahead)
  have hrising := h.rising
  refine {
    rising := by rwa [hassoc]
    current_le := Int.le_of_eq hnext
    ahead_empty := (List.forall_mem_cons.mp h.ahead_empty).2
    ahead_gt := ?_
    ahead_isTarget := (List.forall_mem_cons.mp h.ahead_isTarget).2
    asked_iff := ?_
    target_made := ?_
    closed := ?_
    exit_made := ?_ }
  · rw [List.pairwise_append, List.pairwise_cons, List.pairwise_cons] at hrising
    rw [← hnext]
    exact hrising.2.1.2.1
  · intro x hx
    rw [h.asked_iff x (by omega), List.exists_mem_cons_iff]
    constructor
    · rintro (heq | hmem)
      · omega
      · exact hmem
    · exact Or.inr
  · intro x hx htarget
    rcases Int.lt_or_eq_of_le hx with hlt | rfl
    · obtain ⟨r, hr, rfl⟩ := h.target_made x (by omega) htarget
      exact ⟨r, List.mem_append_left _ hr, rfl⟩
    · exact ⟨next, by simp, hnext⟩
  · intro r hr
    rcases List.mem_append.mp hr with hr | hr
    · exact h.closed r hr
    · obtain rfl := List.mem_singleton.mp hr
      exact hclosed
  · intro e he hleaves
    rw [hassoc]
    rcases Nat.lt_or_eq_of_le (Nat.le_of_lt_succ he) with hlt | rfl
    · obtain ⟨r, hr, hends, hbehind⟩ := h.exit_made e hlt hleaves
      exact ⟨r, List.mem_append_left _ hr, hends, hbehind⟩
    · refine ⟨cur, by simp, hends, ?_⟩
      intro q hq hlt
      rw [List.pairwise_append] at hrising
      rcases List.mem_append.mp hq with hq | hq
      · exact absurd hlt (Int.lt_asymm (hrising.2.2 q hq cur (by simp)))
      · rcases List.mem_cons.mp hq with rfl | hq
        · exact absurd hlt (Int.lt_irrefl _)
        · exact h.ahead_gt q hq

/-- When the next offset was looked up, the first block ahead starts there. -/
theorem exists_next (h : Spans code i asked done cur ahead)
    (hasked : ((i + 1 : Nat) : Int) ∈ asked) :
    ∃ next rest, ahead = next :: rest ∧ next.offset = (i + 1 : Nat) := by
  obtain ⟨r, hr, hoffset⟩ := (h.asked_iff (i + 1 : Nat) (by omega)).mp hasked
  cases ahead with
  | nil => cases hr
  | cons next rest =>
      refine ⟨next, rest, rfl, ?_⟩
      rcases List.mem_cons.mp hr with rfl | hr
      · exact hoffset
      · have hgt := h.ahead_gt next (by simp)
        have hrising := h.rising
        rw [List.pairwise_append, List.pairwise_cons, List.pairwise_cons] at hrising
        have hlt := hrising.2.1.2.1 r hr
        omega

/-- The spans behind one that ends with the statement of an exit start behind that statement. -/
theorem lt_of_behind {before after : List Span} {r : Span} {e : Nat}
    (h : Spans code i asked (before ++ r :: after) cur ahead)
    (hbehind : ∀ q ∈ (before ++ r :: after) ++ cur :: ahead,
      r.offset < q.offset → (e : Int) < q.offset) :
    ∀ q ∈ after ++ cur :: ahead, ((statementStart code e : Nat) : Int) < q.offset := by
  intro q hq
  have hle : statementStart code e ≤ e := lastCut_le _ code e
  have hrising := h.rising
  rw [List.append_assoc, List.cons_append, List.pairwise_append, List.pairwise_cons] at hrising
  have hlt := hbehind q (by simp_all) (hrising.2.1.1 q hq)
  omega

end Spans

/-! ## Looking up a seam -/

section Lookup

variable {code : List Instr} {i : Nat} {asked : List Int} {g : Graph} {current : BlockId}
  {done ahead : List Span} {cur : Span} {offset : Int}

/-- A look-up gives a block that starts at the offset. -/
theorem Graph.Grown.blockAt_offset {g' : Graph} {b : BlockId} (hg : g.Grown)
    (h : Graph.blockAt 0 offset g = .ok b g') :
    b < g'.blockCount ∧ (g'.block b).offset = offset := by
  rcases Graph.blockAt_cases h with ⟨hplace, rfl⟩ | ⟨c, hplace, rfl, rfl⟩ | ⟨c, s, hplace, rfl, rfl⟩
  · exact Graph.locate_spec hg.threaded.chained hplace
  · rw [Graph.insertBehind_blockCount, Graph.insertBehind_offset, if_pos rfl]
    exact ⟨Nat.lt_succ_self _, rfl⟩
  · rw [Graph.split_blockCount, Graph.split_offset, Graph.insertBehind_offset, if_pos rfl]
    exact ⟨Nat.lt_succ_self _, rfl⟩

/-- The look-ups of a seam that find or make a block. -/
theorem Shows.lookup_returns (h : Shows g current done cur ahead)
    (hspans : Spans code i asked done cur ahead) (hseam : IsSeam code i offset)
    (hplaced : ∀ y ∈ cur.entries, y.1 ≤ i)
    (hserved : offset ≤ i ∨ offset ∈ asked ∨
      cur.entries ≠ [] ∧ ∀ other ∈ asked, other ≤ i ∨ offset < other) :
    ∃ b g' done' ahead', Graph.blockAt 0 offset g = .ok b g' ∧
      Shows g' current done' cur ahead' ∧ Spans code i (offset :: asked) done' cur ahead' := by
  -- The block is there already.
  have hexisting : (offset ≤ i ∨ offset ∈ asked) → (∃ r ∈ done ++ cur :: ahead, r.offset = offset) →
      ∃ b g' done' ahead', Graph.blockAt 0 offset g = .ok b g' ∧
        Shows g' current done' cur ahead' ∧ Spans code i (offset :: asked) done' cur ahead' := by
    rintro hknown ⟨r, hr, rfl⟩
    obtain ⟨b, hlook⟩ := h.blockAt_existing hspans.rising hr hseam.nonneg
    exact ⟨b, g, done, ahead, hlook, h, hspans.ask hknown⟩
  by_cases hle : offset ≤ i
  · rcases hseam with htarget | ⟨e, he, hleaves, rfl⟩
    · obtain ⟨r, hr, hoffset⟩ := hspans.target_made offset hle htarget
      refine hexisting (Or.inl hle) ⟨r, ?_, hoffset⟩
      rw [List.append_cons]
      exact List.mem_append_left _ hr
    · obtain ⟨r, hr, ⟨hrle, init, t, hentries, hinit⟩, hbehind⟩ :=
        hspans.exit_made e (List.mem_range.mp he) hleaves
      rcases Int.lt_or_eq_of_le hrle with hlt | heq
      · obtain ⟨before, after, rfl⟩ := List.append_of_mem hr
        have hafter := hspans.lt_of_behind hbehind
        obtain ⟨d, g', hlook, hshows⟩ :=
          h.blockAt_cut hspans.rising (Int.natCast_nonneg _) hlt hafter hentries hinit
        refine ⟨_, g', _, ahead, hlook, hshows, hspans.cut hle hlt hafter hentries ?_⟩
        intro o ho
        exact ⟨_, _, List.mem_singleton.mp ho⟩
      · exact hexisting (Or.inl hle) ⟨r, List.mem_append_left _ hr, heq⟩
  · have hlt := Int.not_le.mp hle
    by_cases hasked : offset ∈ asked
    · obtain ⟨r, hr, hoffset⟩ := (hspans.asked_iff offset hlt).mp hasked
      exact hexisting (Or.inr hasked) ⟨r, by simp [hr], hoffset⟩
    · obtain ⟨hne, hothers⟩ := (hserved.resolve_left hle).resolve_left hasked
      have hahead : ∀ r ∈ ahead, offset < r.offset := by
        intro r hr
        have hgt := hspans.ahead_gt r hr
        refine (hothers r.offset ?_).resolve_left (Int.not_le.mpr hgt)
        exact (hspans.asked_iff r.offset hgt).mpr ⟨r, hr, rfl⟩
      obtain ⟨hlook, hshows⟩ := h.blockAt_behind hspans.rising hseam.nonneg
        (Int.lt_of_le_of_lt hspans.current_le hlt) hahead hne
        fun y hy => Int.lt_of_le_of_lt (hplaced y hy) hlt
      exact ⟨_, _, done, _, hlook, hshows, hspans.insert hlt (hseam.isTarget hlt) hahead⟩

/-- All other look-ups land in an empty block. -/
theorem Shows.lookup_fails (h : Shows g current done cur ahead)
    (hspans : Spans code i asked done cur ahead) (hnonneg : 0 ≤ offset)
    (hserved : ¬ (offset ≤ i ∨ offset ∈ asked ∨
      cur.entries ≠ [] ∧ ∀ other ∈ asked, other ≤ i ∨ offset < other)) :
    Graph.blockAt 0 offset g = .error .emptyBlock g := by
  rw [not_or, not_or, Int.not_le] at hserved
  obtain ⟨hlt, hasked, hrest⟩ := hserved
  obtain ⟨before, r, after, hsplit, hle, hafter⟩ := h.exists_last_le hspans.rising hnonneg
  have hr : r ∈ done ++ cur :: ahead := hsplit ▸ List.mem_append_right _ (by simp)
  have hmax : ∀ q ∈ done ++ cur :: ahead, q.offset ≤ offset → q.offset ≤ r.offset := by
    have hrising := hspans.rising
    rw [hsplit, List.pairwise_append] at hrising
    intro q hq hqle
    rw [hsplit] at hq
    rcases List.mem_append.mp hq with hq | hq
    · exact Int.le_of_lt (hrising.2.2 q hq r (by simp))
    · rcases List.mem_cons.mp hq with rfl | hq
      · exact Int.le_refl _
      · exact absurd hqle (Int.not_le.mpr (hafter q hq))
  have hcur : cur.offset ≤ r.offset :=
    hmax cur (by simp) (Int.le_trans hspans.current_le (Int.le_of_lt hlt))
  have hempty : r.entries = [] ∧ r.offset ≠ offset := by
    rcases List.mem_append.mp hr with hr | hr
    · have hrising := hspans.rising
      rw [List.pairwise_append] at hrising
      exact absurd hcur (Int.not_le.mpr (hrising.2.2 r hr cur (by simp)))
    rcases List.mem_cons.mp hr with rfl | hr
    · refine ⟨?_, Int.ne_of_lt (Int.lt_of_le_of_lt hspans.current_le hlt)⟩
      by_contra hne
      refine hrest ⟨hne, ?_⟩
      intro other hother
      by_contra hbetween
      rw [not_or, Int.not_le, Int.not_lt] at hbetween
      obtain ⟨q, hq, rfl⟩ := (hspans.asked_iff other hbetween.1).mp hother
      have hqr := hmax q (by simp [hq]) hbetween.2
      exact absurd hbetween.1 (Int.not_lt.mpr (Int.le_trans hqr hspans.current_le))
    · refine ⟨hspans.ahead_empty r hr, ?_⟩
      intro heq
      exact hasked ((hspans.asked_iff offset hlt).mpr ⟨r, hr, heq⟩)
  have hrlt : r.offset < offset := Int.lt_iff_le_and_ne.mpr ⟨hle, hempty.2⟩
  exact h.blockAt_empty hspans.rising hsplit hnonneg hrlt hafter hempty.1

end Lookup

end LinearScan
