import LinearScan.Proofs.Progress

/-!
# Where a variable is read and written next

The survey lists the trees that read a variable and those that write it, in execution order.
Trees are numbered in that order too, so a search through a list finds the tree with the
smallest number from some place on.  The place of the first write is kept on the way.
-/

namespace LinearScan

open Allocator Alloc

/-- The trees of the given kind that name the variable `k`, in execution order. -/
def Imported.accesses (m : Imported) (kind : TreeKind) (k : Nat) : List Tree :=
  (m.ir.trees m.graph).filter fun t => t.Names kind k

namespace Notes

/-- The trees stand in the order of their numbers. -/
def Ascending (n : Notes) (ts : List Tree) : Prop :=
  ts.Pairwise fun t u => n.index t < n.index u

/-- The answer is the tree with the smallest number from `pos` on, if there is one. -/
def Earliest (n : Notes) (ts : List Tree) (pos : Int) : Option Tree → Prop
  | none => ∀ u ∈ ts, (n.index u : Int) < pos
  | some t => t ∈ ts ∧ pos ≤ n.index t ∧ ∀ u ∈ ts, pos ≤ n.index u → n.index t ≤ n.index u

/-- The place `start` is the smallest number of the trees, or `last` if there are none. -/
def StartsAt (n : Notes) (last : Nat) (ts : List Tree) (start : Int) : Prop :=
  (∀ t ∈ ts, start ≤ n.index t) ∧ ((ts = [] ∧ start = last) ∨ ∃ t ∈ ts, start = n.index t)

variable {n : Notes} {ts : List Tree} {t : Tree} {last : Nat}

theorem Ascending.earliest_find? (h : n.Ascending ts) (pos : Int) :
    n.Earliest ts pos (ts.find? fun t => pos ≤ n.index t) := by
  cases hfind : ts.find? fun t => decide (pos ≤ n.index t) with
  | none =>
      intro u hu
      simpa using List.find?_eq_none.mp hfind u hu
  | some t =>
      have hpos := List.find?_some hfind
      refine ⟨List.mem_of_find?_eq_some hfind, of_decide_eq_true hpos, ?_⟩
      intro u hu hpos
      exact index_le_of_find? h hfind hu (decide_eq_true hpos)

theorem startsAt_nil (n : Notes) (last : Nat) : n.StartsAt last [] last :=
  ⟨by simp, Or.inl ⟨rfl, rfl⟩⟩

/-- One more tree, with a number below `last`. -/
theorem StartsAt.concat {start : Int} (h : n.StartsAt last ts start) (ht : n.index t < last) :
    n.StartsAt last (ts ++ [t]) (if (n.index t : Int) < start then n.index t else start) := by
  obtain ⟨hle, hfirst⟩ := h
  refine ⟨?_, Or.inr ?_⟩
  · intro u hu
    rcases List.mem_append.mp hu with hu | hu
    · have := hle u hu
      split <;> omega
    · obtain rfl := List.mem_singleton.mp hu
      split <;> omega
  · split
    · exact ⟨t, by simp, rfl⟩
    · next hlt =>
        rcases hfirst with ⟨-, rfl⟩ | ⟨u, hu, hstart⟩
        · exact absurd (Int.ofNat_lt.mpr ht) hlt
        · exact ⟨u, List.mem_append_left _ hu, hstart⟩

end Notes

/-! ## The first write -/

namespace Allocator

/-- Every variable is known to be written first at the first of its writes. -/
def Dated (last : Nat) (s : Allocator) : Prop :=
  ∀ i : Nat, i < s.slots.length →
    s.notes.StartsAt last (s.interval i).writes (s.interval i).firstWrite

end Allocator

namespace Alloc

variable {g : Graph} {ir : Ir} {s₀ s s' : Allocator} {last : Nat}

theorem createSlots_dated {k count : Nat} (hs : s₀.Listed s) (hk : s.slots.length = k)
    (hdated : s.Dated ir.count) (h : createSlots ir k count s = .ok () s') :
    s'.Dated ir.count := by
  induction count generalizing k s with
  | zero =>
      obtain ⟨-, rfl⟩ := pure_cases h
      exact hdated
  | succ count ih =>
      rw [createSlots, bind_apply_of_ok (modify_apply _ s)] at h
      have howner : ({ owner := .slot k, firstWrite := ir.count, lastRead := -1 } :
          Interval).owner = .slot s.slots.length := by rw [hk]
      refine ih (hs.create howner rfl) (by simp [hk]) ?_ h
      intro i hi
      rw [List.length_append, List.length_singleton] at hi
      simp only [Allocator.interval, Notes.interval_addInterval]
      split
      · exact Notes.startsAt_nil _ _
      · next hcount =>
          rw [hs.count_eq] at hcount
          exact hdated i (by omega)

theorem surveyTree_dated {t : Tree} (hdated : s.Dated last) (ht : s.notes.index t < last)
    (h : surveyTree g t s = .ok () s') : s'.Dated last := by
  rcases surveyTree_cases h with ⟨j, -, -, rfl⟩ | ⟨j, p, -, -, rfl⟩ | ⟨-, -, rfl⟩
  · intro i hi
    have hi' := hdated i hi
    simp only [Allocator.interval, Notes.addWrite, Notes.interval_modifyInterval]
    split
    · exact hi'.concat ht
    · exact hi'
  · intro i hi
    have hi' := hdated i hi
    simp only [Allocator.interval, Notes.addRead, Notes.interval_modifyInterval]
    split
    · exact hi'
    · exact hi'
  · exact hdated

theorem extendReads_dated (hdated : s.Dated last) (k : Nat) (is : List IntervalId) :
    ({ s with notes := s.notes.extendReads k is } : Allocator).Dated last := by
  induction is generalizing s with
  | nil => exact hdated
  | cons j is ih =>
      refine ih (s := { s with
        notes := s.notes.modifyInterval j fun iv => { iv with lastRead := k } }) ?_
      intro i hi
      have hi' := hdated i hi
      simp only [Allocator.interval, Notes.interval_modifyInterval]
      split
      · exact hi'
      · exact hi'

theorem surveyTrees_dated {ts : List Tree} (hs : s₀.Listed s) (hdated : s.Dated last)
    (hts : ∀ t ∈ ts, s₀.notes.index t < last) (h : surveyTrees g ts s = .ok () s') :
    s'.Dated last := by
  induction ts generalizing s with
  | nil =>
      obtain ⟨-, rfl⟩ := pure_cases h
      exact hdated
  | cons t ts ih =>
      obtain ⟨⟨⟩, s₁, hfirst, hrest⟩ := exists_of_bind_apply_eq_ok h
      have hindex : s.notes.index t < last := by
        rw [hs.index_eq]
        exact hts t (List.mem_cons_self ..)
      exact ih (surveyTree_surveyed hs hfirst).listed (surveyTree_dated hdated hindex hfirst)
        (fun u hu => hts u (List.mem_cons_of_mem t hu)) hrest

theorem surveyBlocks_dated {bs : List BlockId} (hs : s₀.Listed s) (hdated : s.Dated last)
    (hts : ∀ t ∈ bs.flatMap g.treesOf, s₀.notes.index t < last)
    (h : surveyBlocks g ir bs s = .ok () s') : s'.Dated last := by
  induction bs generalizing s with
  | nil =>
      obtain ⟨-, rfl⟩ := pure_cases h
      exact hdated
  | cons b bs ih =>
      obtain ⟨⟨⟩, s₁, htrees, hrest⟩ := exists_of_bind_apply_eq_ok h
      rw [bind_apply_of_ok (modify_apply _ s₁)] at hrest
      simp only [List.flatMap_cons, List.mem_append] at hts
      have hfirst := surveyTrees_surveyed hs htrees
      have hdated₁ := surveyTrees_dated hs hdated (fun t ht => hts t (Or.inl ht)) htrees
      exact ih (extendReads_surveyed hfirst.listed ir.count s₁.slots).listed
        (extendReads_dated hdated₁ ir.count s₁.slots) (fun t ht => hts t (Or.inr ht)) hrest

/-- The survey finds the place where each variable is written first. -/
theorem survey_dated (h : survey g ir s₀ = .ok () s) (hlive : ∀ i, (s₀.interval i).liveIn = none)
    (hcount : s₀.notes.intervalCount = 0)
    (hindex : ∀ t ∈ (ir.blocks g).flatMap g.treesOf, s₀.notes.index t < ir.count) :
    s.Dated ir.count := by
  rw [survey, bind_apply_of_ok (modify_apply _ s₀)] at h
  obtain ⟨⟨⟩, s₁, hcreate, hblocks⟩ := exists_of_bind_apply_eq_ok h
  have hstart : s₀.Listed { s₀ with slots := [] } :=
    ⟨rfl, hcount, by simp, hlive, rfl, rfl, rfl, rfl, rfl, rfl⟩
  have hdated := createSlots_dated hstart rfl (by simp [Allocator.Dated]) hcreate
  obtain ⟨hs₁, -, -⟩ := createSlots_listed hstart rfl (by simp) hcreate
  exact surveyBlocks_dated hs₁ hdated hindex hblocks

end Alloc

/-! ## The lives of the variables of a program -/

/-- What the survey has found out about the variable `k`, in the interval `i`: the trees that
read it and those that write it, where it is written first, and where it is read or written
next, from any place on. -/
structure Imported.Lives (m : Imported) (s : Allocator) (k : Nat) (i : IntervalId) : Prop where
  uses_eq : (s.interval i).uses = m.accesses .ldLocal k
  uses_ascending : m.notes.Ascending (s.interval i).uses
  writes_eq : (s.interval i).writes = m.accesses .stLocal k
  writes_ascending : m.notes.Ascending (s.interval i).writes
  firstWrite_starts :
    m.notes.StartsAt m.ir.count (m.accesses .stLocal k) (s.interval i).firstWrite
  nextUse_earliest : ∀ pos : Int,
    m.notes.Earliest (m.accesses .ldLocal k) pos (s.notes.nextUse i pos)
  nextWrite_earliest : ∀ pos : Int,
    m.notes.Earliest (m.accesses .stLocal k) pos (s.notes.nextWrite i pos)

theorem Imported.ascending_accesses {m : Imported} (hfirst : m.ir.first = 0)
    (hsorted : m.notes.Sorted m.graph) (kind : TreeKind) (k : Nat) :
    m.notes.Ascending (m.accesses kind k) := by
  rw [Imported.accesses, Ir.trees, hfirst]
  exact hsorted.filter _

/-- In a state that was surveyed the searches answer for the trees of the program. -/
theorem Imported.lives_of_charted {m : Imported} {s : Allocator} {k : Nat} (hfirst : m.ir.first = 0)
    (hsorted : m.notes.Sorted m.graph) (hcharted : s.Charted m.graph)
    (hdated : s.Dated m.ir.count) (hindex : s.notes.index = m.notes.index)
    (hk : k < s.slots.length) : m.Lives s k k := by
  have huses : (s.interval k).uses = m.accesses .ldLocal k := by
    rw [hcharted.uses_eq k hk, Imported.accesses, Ir.trees, hfirst]
  have hwrites : (s.interval k).writes = m.accesses .stLocal k := by
    rw [hcharted.writes_eq k hk, Imported.accesses, Ir.trees, hfirst]
  have hloads := m.ascending_accesses hfirst hsorted .ldLocal k
  have hstores := m.ascending_accesses hfirst hsorted .stLocal k
  refine ⟨huses, huses ▸ hloads, hwrites, hwrites ▸ hstores, ?_, ?_, ?_⟩
  · rw [← hwrites, Notes.StartsAt, ← hindex]
    exact hdated k hk
  · intro pos
    have hsearch : s.notes.nextUse k pos =
        (m.accesses .ldLocal k).find? fun t => pos ≤ m.notes.index t := by
      rw [Notes.nextUse, hindex, ← huses]
      rfl
    rw [hsearch]
    exact hloads.earliest_find? pos
  · intro pos
    have hsearch : s.notes.nextWrite k pos =
        (m.accesses .stLocal k).find? fun t => pos ≤ m.notes.index t := by
      rw [Notes.nextWrite, hindex, ← hwrites]
      rfl
    rw [hsearch]
    exact hstores.earliest_find? pos

/-- The survey of a program finds the life of every variable. -/
theorem Program.survey_lives {p : Program} {m : Imported} (h : p.import? = .ok m)
    (honce : ((m.ir.trees m.graph).map Tree.id).Nodup)
    (hnamed : m.graph.NamesVariables p.locals.toNat) (size : Int) (reuse : Bool) :
    ∃ s, survey m.graph m.ir (Allocator.create m.notes size reuse) = .ok () s ∧
      s.slots.length = p.locals.toNat ∧
      ∀ k i : Nat, s.slots[k]? = some i → m.Lives s k i := by
  obtain ⟨⟨pending, hg⟩, hfresh, hfirst⟩ := Program.import?_formed h
  obtain ⟨hlocals, hindex⟩ := Program.import?_measures h
  obtain ⟨⟨⟩, s, hsurvey⟩ := returns_survey (s := Allocator.create m.notes size reuse) hg hfirst
    (hlocals ▸ hnamed) hfresh.liveIn_eq hfresh.intervalCount_eq
  obtain ⟨hlisted, hlength, -, -⟩ :=
    survey_listed hsurvey hfresh.liveIn_eq hfresh.intervalCount_eq
  obtain ⟨hcharted, -⟩ := Program.survey_charted h hnamed hsurvey
  have hdated := survey_dated hsurvey hfresh.liveIn_eq hfresh.intervalCount_eq (by
    rw [Ir.blocks, hfirst]
    exact hindex)
  refine ⟨s, hsurvey, by rw [hlength, hlocals], ?_⟩
  intro k i hslot
  -- The variables are numbered like their intervals.
  obtain ⟨hk, -⟩ := List.getElem?_eq_some_iff.mp hslot
  rw [hlisted.slots_eq, List.getElem?_range hk] at hslot
  obtain rfl : k = i := Option.some.inj hslot
  exact m.lives_of_charted hfirst (Program.import?_sorted h honce) hcharted hdated
    (funext hlisted.index_eq) hk

/-- The first Fibonacci number is read in the loop and behind it, and the last variable is never
written. -/
theorem Program.survey_lives_fibonacci :
    (∀ instr ∈ (Samples.fibonacci 10).instrs,
      instr.inRange (Samples.fibonacci 10).locals = true) ∧
      ∃ m, (Samples.fibonacci 10).import? = .ok m ∧ ((m.ir.trees m.graph).map Tree.id).Nodup ∧
        (m.accesses .ldLocal 0).map m.notes.index = [11, 24] ∧ m.accesses .stLocal 4 = [] ∧
        ∃ s, survey m.graph m.ir (Allocator.create m.notes 2 true) = .ok () s ∧
          (∃ i, s.slots[0]? = some i ∧ m.Lives s 0 i) ∧
          ∃ i, s.slots[4]? = some i ∧ m.Lives s 4 i := by
  have hrange : ∀ instr ∈ (Samples.fibonacci 10).instrs,
      instr.inRange (Samples.fibonacci 10).locals = true := by decide +kernel
  obtain ⟨m, himport, honce, hreads, hwrites⟩ : ∃ m, (Samples.fibonacci 10).import? = .ok m ∧
      ((m.ir.trees m.graph).map Tree.id).Nodup ∧
      (m.accesses .ldLocal 0).map m.notes.index = [11, 24] ∧ m.accesses .stLocal 4 = [] := by
    decide +kernel
  obtain ⟨s, hsurvey, hlength, hlives⟩ := Program.survey_lives himport honce
    (Program.import?_namesVariables hrange himport) 2 true
  have hlife : ∀ k : Nat, k < 5 → ∃ i, s.slots[k]? = some i ∧ m.Lives s k i := by
    intro k hk
    have hsome : k < s.slots.length := by
      rw [hlength]
      exact hk
    have hslot := List.getElem?_eq_getElem hsome
    exact ⟨_, hslot, hlives k _ hslot⟩
  exact ⟨hrange, m, himport, honce, hreads, hwrites, s, hsurvey, hlife 0 (by decide),
    hlife 4 (by decide)⟩

end LinearScan
