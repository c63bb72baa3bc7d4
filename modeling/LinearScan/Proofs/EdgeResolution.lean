import LinearScan.Samples
import LinearScan.Proofs.Run

/-!
# Agreement along edges is exact

Where a scan returns, the spills, moves and restores on an edge are exactly those that
take the local variables from the registers in which the source left them to the
registers with which the target was scanned.  The target was scanned with what the first
of its predecessors in front of it has left, so that nothing happens on the edge from
there.
-/

namespace LinearScan

/-- The edges that leave the block `b`, with their targets. -/
def Graph.exits (g : Graph) (b : BlockId) : List (EdgeId × BlockId) :=
  match g.terminator b with
  | .ok t => t.edges
  | .error _ => []

namespace Notes

/-- Whether the interval `i` is that of the local variable `k`. -/
def isSlot (n : Notes) (k : Int) (i : IntervalId) : Bool :=
  (n.interval i).owner.sameSlot (.slot k)

/-- The register in which a set of crossings holds the local variable `k`. -/
def registerIn (n : Notes) (cs : List Crossing) (k : Int) : Option Int :=
  (cs.find? fun c => n.isSlot k c.interval).bind Crossing.reg

/-- The registers of the local variables behind the edge `e`, when they were as `place`
says before it and all spills, moves and restores on the edge happen at once. -/
def acrossEdge (n : Notes) (e : EdgeId) (place : Int → Option Int) (k : Int) : Option Int :=
  let note := n.edge e
  match note.restores.find? fun r => n.isSlot k r.interval with
  | some r => r.reg
  | none =>
      match note.moves.find? fun m => n.isSlot k m.interval with
      | some m => m.target
      | none => if note.spills.any fun s => n.isSlot k s.interval then none else place k

/-- The crossings are of local variables in registers, and of each variable there is at
most one. -/
structure ListsSlots (n : Notes) (cs : List Crossing) : Prop where
  nodup : (cs.map fun c => (n.interval c.interval).owner).Nodup
  exists_slot : ∀ c ∈ cs, ∃ k r, (n.interval c.interval).owner = .slot k ∧ c.reg = some r

/-- What is noted on the edge `e` takes the local variables from the registers in
`before` to those in `after`, and does nothing else. -/
structure Agrees (n : Notes) (e : EdgeId) (before after : List Crossing) : Prop where
  spills_nodup : ((n.edge e).spills.map fun s => (n.interval s.interval).owner).Nodup
  moves_nodup : ((n.edge e).moves.map fun m => (n.interval m.interval).owner).Nodup
  restores_nodup : ((n.edge e).restores.map fun r => (n.interval r.interval).owner).Nodup
  spill_iff : ∀ owner reg,
    (∃ s ∈ (n.edge e).spills, (n.interval s.interval).owner = owner ∧ s.reg = reg) ↔
      ∃ k r, owner = .slot k ∧ reg = some r ∧
        n.registerIn before k = some r ∧ n.registerIn after k = none
  move_iff : ∀ owner source target,
    (∃ m ∈ (n.edge e).moves,
        (n.interval m.interval).owner = owner ∧ m.source = source ∧ m.target = target) ↔
      ∃ k r r', owner = .slot k ∧ source = some r ∧ target = some r' ∧
        n.registerIn before k = some r ∧ n.registerIn after k = some r' ∧ r ≠ r'
  restore_iff : ∀ owner reg,
    (∃ r ∈ (n.edge e).restores, (n.interval r.interval).owner = owner ∧ r.reg = reg) ↔
      ∃ k r, owner = .slot k ∧ reg = some r ∧
        n.registerIn before k = none ∧ n.registerIn after k = some r

/-! ## Variables in a set of crossings -/

variable {n : Notes} {cs before after : List Crossing} {k : Int} {i j : IntervalId}

theorem isSlot_iff : n.isSlot k i = true ↔ (n.interval i).owner = .slot k := by
  rw [isSlot]
  cases (n.interval i).owner with
  | slot m => simp [Owner.sameSlot]
  | temp t => simp [Owner.sameSlot]

theorem sameSlot_iff {c d : Crossing} (hc : ∃ k, (n.interval c.interval).owner = .slot k) :
    n.sameSlot c d = true ↔ (n.interval c.interval).owner = (n.interval d.interval).owner := by
  obtain ⟨k, hk⟩ := hc
  rw [sameSlot, hk]
  cases (n.interval d.interval).owner with
  | slot m => simp [Owner.sameSlot]
  | temp t => simp [Owner.sameSlot]

namespace ListsSlots

section

variable (hcs : n.ListsSlots cs)
include hcs

theorem exists_owner {c : Crossing} (hc : c ∈ cs) :
    ∃ k, (n.interval c.interval).owner = .slot k := by
  obtain ⟨k, -, hk, -⟩ := hcs.exists_slot c hc
  exact ⟨k, hk⟩

theorem eq_of_owner_eq {c d : Crossing} (hc : c ∈ cs) (hd : d ∈ cs)
    (h : (n.interval c.interval).owner = (n.interval d.interval).owner) : c = d :=
  List.inj_on_of_nodup_map hcs.nodup hc hd h

theorem registerIn_eq_some_iff {r : Int} :
    n.registerIn cs k = some r ↔
      ∃ c ∈ cs, (n.interval c.interval).owner = .slot k ∧ c.reg = some r := by
  rw [registerIn, Option.bind_eq_some_iff]
  constructor
  · rintro ⟨c, hfind, hr⟩
    exact ⟨c, List.mem_of_find?_eq_some hfind, isSlot_iff.mp (by simpa using List.find?_some hfind),
      hr⟩
  · rintro ⟨c, hc, howner, hr⟩
    cases hfind : cs.find? fun c => n.isSlot k c.interval with
    | none =>
        have hnone := List.find?_eq_none.mp hfind c hc
        exact absurd (isSlot_iff.mpr howner) hnone
    | some d =>
        have hd : (n.interval d.interval).owner = .slot k :=
          isSlot_iff.mp (by simpa using List.find?_some hfind)
        obtain rfl := hcs.eq_of_owner_eq hc (List.mem_of_find?_eq_some hfind)
          (howner.trans hd.symm)
        exact ⟨c, rfl, hr⟩

theorem registerIn_eq_none_iff :
    n.registerIn cs k = none ↔ ∀ c ∈ cs, (n.interval c.interval).owner ≠ .slot k := by
  rw [← not_iff_not, ← ne_eq, Option.ne_none_iff_exists']
  constructor
  · rintro ⟨r, hr⟩ hall
    obtain ⟨c, hc, howner, -⟩ := hcs.registerIn_eq_some_iff.mp hr
    exact hall c hc howner
  · intro hnot
    push Not at hnot
    obtain ⟨c, hc, howner⟩ := hnot
    obtain ⟨-, r, -, hr⟩ := hcs.exists_slot c hc
    exact ⟨r, hcs.registerIn_eq_some_iff.mpr ⟨c, hc, howner, hr⟩⟩

theorem any_sameSlot_iff {d : Crossing} (hd : (n.interval d.interval).owner = .slot k) :
    (cs.any fun c => n.sameSlot c d) = true ↔ n.registerIn cs k ≠ none := by
  rw [ne_eq, hcs.registerIn_eq_none_iff, List.any_eq_true]
  push Not
  constructor
  · rintro ⟨c, hc, hsame⟩
    exact ⟨c, hc, ((sameSlot_iff (hcs.exists_owner hc)).mp hsame).trans hd⟩
  · rintro ⟨c, hc, howner⟩
    exact ⟨c, hc, (sameSlot_iff (hcs.exists_owner hc)).mpr (howner.trans hd.symm)⟩

end

end ListsSlots
/-! ## The three lists -/

theorem sublist_map_of_flatMap {α β : Type} {f : α → List β} {h : α → β} {as : List α}
    (hf : ∀ a ∈ as, (f a).Sublist [h a]) : (as.flatMap f).Sublist (as.map h) := by
  induction as with
  | nil => simp
  | cons a as ih =>
      rw [List.flatMap_cons, List.map_cons, ← List.singleton_append]
      exact (hf a (by simp)).append (ih fun b hb => hf b (by simp [hb]))

/-- A variable is moved to at most one register. -/
theorem filter_sublist_singleton (hafter : n.ListsSlots after) {c : Crossing}
    (hc : ∃ k, (n.interval c.interval).owner = .slot k) :
    ((after.filter fun d => n.sameSlot c d && c.reg != d.reg).map
      fun _ => (n.interval c.interval).owner).Sublist [(n.interval c.interval).owner] := by
  generalize hL : (after.filter fun d => n.sameSlot c d && c.reg != d.reg) = L
  have howner : ∀ d ∈ L, d ∈ after ∧
      (n.interval d.interval).owner = (n.interval c.interval).owner := by
    intro d hd
    rw [← hL, List.mem_filter, Bool.and_eq_true] at hd
    exact ⟨hd.1, ((sameSlot_iff hc).mp hd.2.1).symm⟩
  have hnodup : L.Nodup := by
    rw [← hL]
    exact hafter.nodup.of_map.filter _
  cases L with
  | nil => simp
  | cons d L =>
      cases L with
      | nil => simp
      | cons d' L =>
          have hd := howner d (by simp)
          have hd' := howner d' (by simp)
          have heq := hafter.eq_of_owner_eq hd.1 hd'.1 (hd.2.trans hd'.2.symm)
          simp [heq] at hnodup

theorem mem_edgeMoves {m : Move} :
    m ∈ n.edgeMoves before after ↔ ∃ c ∈ before, ∃ d ∈ after,
      n.sameSlot c d = true ∧ c.reg ≠ d.reg ∧ m = ⟨c.reg, d.reg, c.interval⟩ := by
  simp only [edgeMoves, List.mem_flatMap, List.mem_map, List.mem_filter, Bool.and_eq_true,
    bne_iff_ne]
  constructor
  · rintro ⟨c, hc, d, ⟨hd, hsame, hne⟩, rfl⟩
    exact ⟨c, hc, d, hd, hsame, hne, rfl⟩
  · rintro ⟨c, hc, d, hd, hsame, hne, rfl⟩
    exact ⟨c, hc, d, ⟨hd, hsame, hne⟩, rfl⟩

theorem agrees_of_edge_eq {e : EdgeId} (hbefore : n.ListsSlots before)
    (hafter : n.ListsSlots after)
    (h : n.edge e = ⟨n.edgeSpills before after, n.edgeMoves before after,
      n.edgeRestores before after⟩) : n.Agrees e before after where
  spills_nodup := by
    rw [h, edgeSpills, List.map_map]
    exact hbefore.nodup.sublist (List.filter_sublist.map _)
  moves_nodup := by
    rw [h, edgeMoves, List.map_flatMap]
    refine hbefore.nodup.sublist (sublist_map_of_flatMap ?_)
    intro c hc
    rw [List.map_map]
    exact filter_sublist_singleton hafter (hbefore.exists_owner hc)
  restores_nodup := by
    rw [h, edgeRestores, List.map_map]
    exact hafter.nodup.sublist (List.filter_sublist.map _)
  spill_iff owner reg := by
    simp only [h, edgeSpills, List.mem_map, List.mem_filter, Bool.not_eq_true']
    constructor
    · rintro ⟨s, ⟨c, ⟨hc, hany⟩, rfl⟩, rfl, rfl⟩
      obtain ⟨k, r, hk, hr⟩ := hbefore.exists_slot c hc
      refine ⟨k, r, hk, hr, hbefore.registerIn_eq_some_iff.mpr ⟨c, hc, hk, hr⟩, ?_⟩
      by_contra hne
      rw [(hafter.any_sameSlot_iff hk).mpr hne] at hany
      cases hany
    · rintro ⟨k, r, rfl, rfl, hin, hout⟩
      obtain ⟨c, hc, hk, hr⟩ := hbefore.registerIn_eq_some_iff.mp hin
      refine ⟨_, ⟨c, ⟨hc, ?_⟩, rfl⟩, hk, hr⟩
      rw [← Bool.not_eq_true, hafter.any_sameSlot_iff hk]
      exact fun hne => hne hout
  move_iff owner source target := by
    simp only [h, mem_edgeMoves]
    constructor
    · rintro ⟨m, ⟨c, hc, d, hd, hsame, hne, rfl⟩, rfl, rfl, rfl⟩
      obtain ⟨k, r, hk, hr⟩ := hbefore.exists_slot c hc
      obtain ⟨-, r', -, hr'⟩ := hafter.exists_slot d hd
      have hk' : (n.interval d.interval).owner = .slot k :=
        ((sameSlot_iff ⟨k, hk⟩).mp hsame).symm.trans hk
      refine ⟨k, r, r', hk, hr, hr', hbefore.registerIn_eq_some_iff.mpr ⟨c, hc, hk, hr⟩,
        hafter.registerIn_eq_some_iff.mpr ⟨d, hd, hk', hr'⟩, ?_⟩
      rintro rfl
      exact hne (hr.trans hr'.symm)
    · rintro ⟨k, r, r', rfl, rfl, rfl, hin, hout, hne⟩
      obtain ⟨c, hc, hk, hr⟩ := hbefore.registerIn_eq_some_iff.mp hin
      obtain ⟨d, hd, hk', hr'⟩ := hafter.registerIn_eq_some_iff.mp hout
      refine ⟨_, ⟨c, hc, d, hd, ?_, ?_, rfl⟩, hk, hr, hr'⟩
      · exact (sameSlot_iff ⟨k, hk⟩).mpr (hk.trans hk'.symm)
      · rw [hr, hr']
        simpa using hne
  restore_iff owner reg := by
    simp only [h, edgeRestores, List.mem_map, List.mem_filter, Bool.not_eq_true']
    constructor
    · rintro ⟨r, ⟨d, ⟨hd, hany⟩, rfl⟩, rfl, rfl⟩
      obtain ⟨k, r, hk, hr⟩ := hafter.exists_slot d hd
      refine ⟨k, r, hk, hr, ?_, hafter.registerIn_eq_some_iff.mpr ⟨d, hd, hk, hr⟩⟩
      by_contra hne
      rw [(hbefore.any_sameSlot_iff hk).mpr hne] at hany
      cases hany
    · rintro ⟨k, r, rfl, rfl, hin, hout⟩
      obtain ⟨d, hd, hk, hr⟩ := hafter.registerIn_eq_some_iff.mp hout
      refine ⟨_, ⟨d, ⟨hd, ?_⟩, rfl⟩, hk, hr⟩
      rw [← Bool.not_eq_true, hbefore.any_sameSlot_iff hk]
      exact fun hne => hne hin

/-- Spills, moves and restores that agree with two sets lead from the one to the other. -/
theorem Agrees.acrossEdge_eq {e : EdgeId} (h : n.Agrees e before after) :
    n.acrossEdge e (n.registerIn before) = n.registerIn after := by
  funext k
  rw [acrossEdge]
  split
  · next r hfind =>
      have howner := isSlot_iff.mp (by simpa using List.find?_some hfind)
      obtain ⟨k', r', hk', hr', -, hafter⟩ :=
        (h.restore_iff _ _).mp ⟨r, List.mem_of_find?_eq_some hfind, howner, rfl⟩
      injection hk' with hk'
      rw [hr', hk', hafter]
  · next hrestore =>
      split
      · next m hfind =>
          have howner := isSlot_iff.mp (by simpa using List.find?_some hfind)
          obtain ⟨k', -, r', hk', -, hr', -, hafter, -⟩ :=
            (h.move_iff _ _ _).mp ⟨m, List.mem_of_find?_eq_some hfind, howner, rfl, rfl⟩
          injection hk' with hk'
          rw [hr', hk', hafter]
      · next hmove =>
          split
          · next hspill =>
              obtain ⟨sp, hsp, howner⟩ := List.any_eq_true.mp hspill
              obtain ⟨k', -, hk', -, -, hafter⟩ :=
                (h.spill_iff _ _).mp ⟨sp, hsp, isSlot_iff.mp howner, rfl⟩
              injection hk' with hk'
              rw [hk', hafter]
          · next hspill =>
              -- The variable is on none of the lists, so its register cannot differ.
              cases hbefore : n.registerIn before k with
              | none =>
                  cases hafter : n.registerIn after k with
                  | none => rfl
                  | some r' =>
                      obtain ⟨r, hr, howner, -⟩ :=
                        (h.restore_iff (.slot k) (some r')).mpr ⟨k, r', rfl, rfl, hbefore, hafter⟩
                      exact absurd (isSlot_iff.mpr howner) (List.find?_eq_none.mp hrestore r hr)
              | some r =>
                  cases hafter : n.registerIn after k with
                  | none =>
                      obtain ⟨sp, hsp, howner, -⟩ :=
                        (h.spill_iff (.slot k) (some r)).mpr ⟨k, r, rfl, rfl, hbefore, hafter⟩
                      exact absurd (List.any_eq_true.mpr ⟨sp, hsp, isSlot_iff.mpr howner⟩) hspill
                  | some r' =>
                      by_contra hne
                      obtain ⟨m, hm, howner, -, -⟩ :=
                        (h.move_iff (.slot k) (some r) (some r')).mpr
                          ⟨k, r, r', rfl, rfl, rfl, hbefore, hafter, fun hr => hne (by rw [hr])⟩
                      exact absurd (isSlot_iff.mpr howner) (List.find?_eq_none.mp hmove m hm)

/-- Between equal sets nothing has to happen. -/
theorem Agrees.edge_eq_empty {e : EdgeId} (h : n.Agrees e cs cs) : n.edge e = {} := by
  have hspills : (n.edge e).spills = [] := by
    refine List.eq_nil_iff_forall_not_mem.mpr fun s hs => ?_
    obtain ⟨k, r, -, -, hin, hout⟩ := (h.spill_iff _ _).mp ⟨s, hs, rfl, rfl⟩
    rw [hin] at hout
    cases hout
  have hmoves : (n.edge e).moves = [] := by
    refine List.eq_nil_iff_forall_not_mem.mpr fun m hm => ?_
    obtain ⟨k, r, r', -, -, -, hin, hout, hne⟩ := (h.move_iff _ _ _).mp ⟨m, hm, rfl, rfl, rfl⟩
    rw [hin] at hout
    injection hout with hout
    exact hne hout
  have hrestores : (n.edge e).restores = [] := by
    refine List.eq_nil_iff_forall_not_mem.mpr fun r hr => ?_
    obtain ⟨k, q, -, -, hin, hout⟩ := (h.restore_iff _ _).mp ⟨r, hr, rfl, rfl⟩
    rw [hin] at hout
    cases hout
  cases hnote : n.edge e with
  | mk spills moves restores =>
      rw [hnote] at hspills hmoves hrestores
      simp_all

end Notes
namespace Alloc

open Allocator

variable {g : Graph} {s s' : Allocator}

/-! ## Going over the edges -/

/-- The crossings that a block leaves, none if it was not scanned. -/
def leftBy (n : Notes) (b : BlockId) : List Crossing :=
  ((n.block b).exit.map Crossings.members).getD []

theorem resolveEdge_cases {b target : BlockId} {e : EdgeId}
    (h : resolveEdge g b e target s = .ok () s') :
    ∃ after log, (s.notes.block target).entry = some after ∧
      s' = { s with
        notes := s.notes.addTraffic e
          (s.notes.edgeSpills (leftBy s.notes b) after.members)
          (s.notes.edgeMoves (leftBy s.notes b) after.members)
          (s.notes.edgeRestores (leftBy s.notes b) after.members)
        log } := by
  have hbody := get_bind_cases h
  cases hentry : (s.notes.block target).entry with
  | none =>
      simp only [hentry] at hbody
      cases hbody
  | some after =>
      simp only [hentry] at hbody
      injection hbody with _ hbody
      exact ⟨after, _, rfl, hbody.symm⟩

/-- Edges are resolved one after the other. -/
inductive Resolved (g : Graph) :
    List (BlockId × EdgeId × BlockId) → Allocator → Allocator → Prop
  | nil (s : Allocator) : Resolved g [] s s
  | cons {b target : BlockId} {e : EdgeId} {xs : List (BlockId × EdgeId × BlockId)}
      {s s₁ s' : Allocator}
      (h : resolveEdge g b e target s = .ok () s₁) (hrest : Resolved g xs s₁ s') :
      Resolved g ((b, e, target) :: xs) s s'

theorem Resolved.append {xs ys : List (BlockId × EdgeId × BlockId)} {s₁ : Allocator}
    (h : Resolved g xs s s₁) (h' : Resolved g ys s₁ s') : Resolved g (xs ++ ys) s s' := by
  induction h with
  | nil s => exact h'
  | cons h _ ih => exact .cons h (ih h')

theorem eachEdge_resolved {b : BlockId} {operands : List Operand}
    (h : eachEdge (resolveEdge g b) operands s = .ok () s') :
    Resolved g ((operands.filterMap Operand.edge?).map fun x => (b, x)) s s' := by
  induction operands generalizing s with
  | nil =>
      obtain ⟨-, rfl⟩ := pure_cases h
      exact .nil s'
  | cons o rest ih =>
      cases o with
      | edge e target =>
          obtain ⟨⟨⟩, s₁, hfirst, hrest⟩ := exists_of_bind_apply_eq_ok h
          exact .cons hfirst (ih hrest)
      | literal l => cases h
      | operator op => cases h

theorem edges_operands (n : Notes) (t : Tree) :
    (n.operands t).filterMap Operand.edge? = t.edges := by
  have hnil : ((n.tree t).stored.map fun r => Operand.literal (.num r)).filterMap Operand.edge? =
      [] := by
    rw [List.filterMap_map]
    exact List.filterMap_eq_nil_iff.mpr fun _ _ => rfl
  rw [Notes.operands, List.filterMap_append, hnil, List.append_nil]
  rfl

/-- All edges that leave the blocks, with their sources. -/
def allExits (g : Graph) (bs : List BlockId) : List (BlockId × EdgeId × BlockId) :=
  bs.flatMap fun b => (g.exits b).map fun x => (b, x)

theorem resolveEdges_resolved {bs : List BlockId} (h : resolveEdges g bs s = .ok () s') :
    Resolved g (allExits g bs) s s' := by
  induction bs generalizing s with
  | nil =>
      obtain ⟨-, rfl⟩ := pure_cases h
      exact .nil s'
  | cons b bs ih =>
      obtain ⟨⟨⟩, s₁, hfirst, hrest⟩ := exists_of_bind_apply_eq_ok (get_bind_cases h)
      have hb : Resolved g ((g.exits b).map fun x => (b, x)) s s₁ := by
        rw [Ir.eachExit] at hfirst
        rw [Graph.exits]
        cases hlast : g.terminator b with
        | error fault =>
            simp only [hlast] at hfirst
            cases hfirst
        | ok t =>
            simp only [hlast] at hfirst
            have hresolved := eachEdge_resolved hfirst
            rwa [edges_operands] at hresolved
      exact hb.append (ih hrest)

/-- Resolving edges changes nothing but what is noted on them. -/
theorem Resolved.frame {xs : List (BlockId × EdgeId × BlockId)} (h : Resolved g xs s s') :
    (∀ b, s'.notes.block b = s.notes.block b) ∧
      (∀ i, s'.notes.interval i = s.notes.interval i) ∧
      ∀ e, e ∉ xs.map (·.2.1) → s'.notes.edge e = s.notes.edge e := by
  induction h with
  | nil s => exact ⟨fun _ => rfl, fun _ => rfl, fun _ _ => rfl⟩
  | @cons b target e xs s s₁ s' hfirst hrest ih =>
      obtain ⟨after, log, -, rfl⟩ := resolveEdge_cases hfirst
      obtain ⟨hblock, hinterval, hedge⟩ := ih
      refine ⟨hblock, hinterval, ?_⟩
      intro d hd
      rw [List.map_cons, List.mem_cons, not_or] at hd
      rw [hedge d hd.2, Notes.edge_addTraffic, if_neg (Ne.symm hd.1)]

section

variable {n n' : Notes} (h : ∀ i, n'.interval i = n.interval i) (before after : List Crossing)
include h

theorem edgeSpills_congr : n'.edgeSpills before after = n.edgeSpills before after := by
  simp only [Notes.edgeSpills, Notes.sameSlot, h]

theorem edgeMoves_congr : n'.edgeMoves before after = n.edgeMoves before after := by
  simp only [Notes.edgeMoves, Notes.sameSlot, h]

theorem edgeRestores_congr : n'.edgeRestores before after = n.edgeRestores before after := by
  simp only [Notes.edgeRestores, Notes.sameSlot, h]

end

/-- What is noted on an edge after the edges, each of them once, have been resolved. -/
theorem Resolved.edge_eq {xs : List (BlockId × EdgeId × BlockId)} (h : Resolved g xs s s')
    (hnodup : (xs.map (·.2.1)).Nodup) (hfresh : ∀ x ∈ xs, s.notes.edge x.2.1 = {})
    {b target : BlockId} {e : EdgeId} (hmem : (b, e, target) ∈ xs) :
    ∃ after, (s.notes.block target).entry = some after ∧
      s'.notes.edge e =
        ⟨s'.notes.edgeSpills (leftBy s.notes b) after.members,
          s'.notes.edgeMoves (leftBy s.notes b) after.members,
          s'.notes.edgeRestores (leftBy s.notes b) after.members⟩ := by
  induction h with
  | nil s => cases hmem
  | @cons c target' d xs s s₁ s' hfirst hrest ih =>
      obtain ⟨after, log, hentry, rfl⟩ := resolveEdge_cases hfirst
      have hd : d ∉ xs.map (·.2.1) := (List.nodup_cons.mp hnodup).1
      rcases List.mem_cons.mp hmem with hhead | htail
      · obtain ⟨rfl, rfl, rfl⟩ : b = c ∧ e = d ∧ target = target' := by simpa using hhead
        obtain ⟨-, hinterval, hedge⟩ := hrest.frame
        have hsame : ∀ i, s'.notes.interval i = s.notes.interval i := hinterval
        have hempty : s.notes.edge e = {} := hfresh (b, e, target) (by simp)
        refine ⟨after, hentry, ?_⟩
        rw [hedge e hd, Notes.edge_addTraffic, if_pos rfl, hempty, edgeSpills_congr hsame,
          edgeMoves_congr hsame, edgeRestores_congr hsame]
        rfl
      · refine ih (List.nodup_cons.mp hnodup).2 ?_ htail
        intro x hx
        have hne : d ≠ x.2.1 := by
          rintro rfl
          exact hd (List.mem_map_of_mem hx)
        rw [Notes.edge_addTraffic, if_neg hne]
        exact hfresh x (by simp [hx])

theorem mem_exits {b : BlockId} {x : EdgeId × BlockId} (hx : x ∈ g.exits b) :
    ∃ r, (g.block b).last = some r ∧ x ∈ (g.stmt r).tree.edges := by
  rw [Graph.exits, Graph.terminator] at hx
  cases hlast : (g.block b).last with
  | none =>
      rw [hlast] at hx
      cases hx
  | some r =>
      rw [hlast] at hx
      exact ⟨r, rfl, hx⟩

/-- No edge leaves two blocks, or one block twice. -/
theorem allExits_nodup {pending : List Tree} (hg : g.Formed pending) {bs : List BlockId}
    (hbs : bs.Nodup) : ((allExits g bs).map (·.2.1)).Nodup := by
  have hedges := hg.planted.edgeIds_nodup
  have heq : (allExits g bs).map (·.2.1) = bs.flatMap fun b => (g.exits b).map Prod.fst := by
    rw [allExits, List.map_flatMap]
    simp only [List.map_map]
    rfl
  rw [heq]
  refine List.nodup_flatMap.mpr ⟨?_, ?_⟩
  · intro b _
    rw [Graph.exits, Graph.terminator]
    cases hlast : (g.block b).last with
    | none => exact List.nodup_nil
    | some r =>
        have hroot : (g.stmt r).tree ∈ g.statementTrees ++ pending :=
          List.mem_append_left _ (Graph.mem_statementTrees (hg.linked.last_lt hlast))
        exact (List.nodup_flatMap.mp hedges).1 _ hroot
  · refine hbs.imp_of_mem ?_
    intro b c _ _ hbc
    refine List.disjoint_left.mpr ?_
    intro e he he'
    obtain ⟨x, hx, rfl⟩ := List.mem_map.mp he
    obtain ⟨y, hy, hxy⟩ := List.mem_map.mp he'
    obtain ⟨r, hr, hxr⟩ := mem_exits hx
    obtain ⟨q, hq, hyq⟩ := mem_exits hy
    have hrq : r = q := eq_of_mem_flatMap_range hedges (hg.linked.last_lt hr)
      (hg.linked.last_lt hq) (List.mem_map_of_mem hxr) (hxy ▸ List.mem_map_of_mem hyq)
    exact hbc (hg.linked.last_inj hr (hrq ▸ hq))

/-- A set of crossings that fits lists local variables. -/
theorem listsSlots_of_fits {cs : List Crossing} (hs : s.Orderly g) (hcs : s.Fits cs) :
    s.notes.ListsSlots cs := by
  have howner : ∀ c ∈ cs, (s.notes.interval c.interval).owner = .slot c.interval :=
    fun c hc => hs.owner_slot c.interval (hcs.interval_lt c hc)
  refine ⟨?_, ?_⟩
  · have hmap : cs.map (fun c => (s.notes.interval c.interval).owner) =
        (cs.map Crossing.interval).map fun i : Nat => Owner.slot (i : Int) := by
      rw [List.map_map]
      exact List.map_congr_left howner
    rw [hmap]
    refine hcs.nodup.map ?_
    intro i j hij
    injection hij with hij
    exact Int.ofNat.inj hij
  · intro c hc
    obtain ⟨r, hr, -⟩ := hcs.reg_range c hc
    exact ⟨c.interval, r, howner c hc, hr⟩

theorem listsSlots_congr {n n' : Notes} {cs : List Crossing}
    (h : ∀ i, n'.interval i = n.interval i) (hcs : n.ListsSlots cs) : n'.ListsSlots cs := by
  refine ⟨?_, ?_⟩
  · simp only [h]
    exact hcs.nodup
  · simp only [h]
    exact hcs.exists_slot

end Alloc

open Allocator Alloc

/-- The exit set that a block takes over is the one of the first of its predecessors
that stands in front of it. -/
theorem exists_of_firstExit_filter {n : Notes} {ps before : List BlockId} {crossings : Crossings}
    (hbefore : ∀ q ∈ before, (n.block q).exit ≠ none)
    (h : n.firstExit (ps.filter (· ∈ before)) = some crossings) :
    ∃ earlier q later, ps = earlier ++ q :: later ∧ q ∈ before ∧
      (∀ r ∈ earlier, r ∉ before) ∧ (n.block q).exit = some crossings := by
  induction ps with
  | nil => cases h
  | cons p ps ih =>
      by_cases hp : p ∈ before
      · rw [List.filter_cons_of_pos (by simpa using hp), Notes.firstExit] at h
        obtain ⟨left, hleft⟩ := Option.ne_none_iff_exists'.mp (hbefore p hp)
        rw [hleft] at h
        exact ⟨[], p, ps, rfl, hp, by simp, hleft.trans h⟩
      · rw [List.filter_cons_of_neg (by simpa using hp)] at h
        obtain ⟨earlier, q, later, rfl, hq, hnone, hexit⟩ := ih h
        refine ⟨p :: earlier, q, later, rfl, hq, ?_, hexit⟩
        intro r hr
        rcases List.mem_cons.mp hr with rfl | hr
        · exact hp
        · exact hnone r hr

/-- In a compiled program the spills, moves and restores on every edge are exactly those
that take the local variables from the registers in which the source left them to the
registers with which the target starts.  The target starts with what the first of its
predecessors that stands in front of it has left, and an edge from a block whose exit set
was taken over carries nothing. -/
theorem Program.compile_edges_agree
    (p : Program) (settings : Settings) (c : Compiled)
    (h : p.compile settings = .ok c) (hfault : c.fault = none)
    (b target : BlockId) (e : EdgeId)
    (hb : b ∈ c.ir.blocks c.graph) (he : (e, target) ∈ c.graph.exits b) :
    let n := c.alloc.notes
    ∃ before after,
      (n.block b).exit = some before ∧ (n.block target).entry = some after ∧
      n.ListsSlots before.members ∧ n.ListsSlots after.members ∧
      n.Agrees e before.members after.members ∧
      n.acrossEdge e (n.registerIn before.members) = n.registerIn after.members ∧
      (before = after → n.edge e = {}) ∧
      ∃ scanned rest earlier q later,
        c.ir.blocks c.graph = scanned ++ target :: rest ∧
        (n.block target).predecessors = earlier ++ q :: later ∧
        q ∈ scanned ∧ (∀ r ∈ earlier, r ∉ scanned) ∧ (n.block q).exit = some after := by
  intro n
  obtain ⟨m, himport, hgraph, hir, hscan⟩ := Program.compile_cases h hfault
  obtain ⟨⟨pending, hg⟩, hfresh, hfirst⟩ := Program.import?_formed himport
  obtain ⟨s₁, s₂, hsurvey, hblocks, hedges⟩ := scan_cases hscan
  obtain ⟨hstart, hlisted⟩ := survey_hasScanned hfresh hsurvey
  have hchain : c.ir.blocks c.graph = m.graph.blocksFrom 0 := by
    rw [Ir.blocks, hir, hgraph, hfirst]
  have hchain' : m.ir.blocks m.graph = m.graph.blocksFrom 0 := by
    rw [Ir.blocks, hfirst]
  rw [hchain'] at hblocks hedges
  have hhas := scanBlocks_hasScanned hg hstart (by simpa using hg.chained.nodup) hblocks
  rw [List.nil_append] at hhas
  have hresolved := resolveEdges_resolved hedges
  obtain ⟨hblock, hinterval, -⟩ := hresolved.frame
  rw [hchain] at hb ⊢
  rw [hgraph] at he
  have hfreshEdges : ∀ x ∈ allExits m.graph (m.graph.blocksFrom 0),
      s₂.notes.edge x.2.1 = {} := by
    intro x _
    rw [Notes.edge, hhas.continues.edges_eq, hlisted.edges_eq]
    exact hfresh.edge_eq x.2.1
  have hmem : (b, e, target) ∈ allExits m.graph (m.graph.blocksFrom 0) :=
    List.mem_flatMap.mpr ⟨b, hb, List.mem_map.mpr ⟨(e, target), he, rfl⟩⟩
  obtain ⟨after, hentry, hedge⟩ :=
    hresolved.edge_eq (allExits_nodup hg hg.chained.nodup) hfreshEdges hmem
  obtain ⟨before, hexit, hfits⟩ := hhas.exit_fits b hb
  have hleft : leftBy s₂.notes b = before.members := by
    rw [leftBy, hexit]
    rfl
  rw [hleft] at hedge
  -- The target is a block of the chain, and it took over the exit set of a predecessor.
  have htarget : target ∈ m.graph.blocksFrom 0 := by
    obtain ⟨r, hr, hxr⟩ := mem_exits he
    have hroot : (m.graph.stmt r).tree ∈ m.graph.statementTrees ++ pending :=
      List.mem_append_left _ (Graph.mem_statementTrees (hg.linked.last_lt hr))
    exact (hg.chained.mem_iff target).mpr (hg.planted.edge_lt _ hroot _ hxr).2
  obtain ⟨scanned, rest, hsplit⟩ := List.append_of_mem htarget
  obtain ⟨hentryEq, -⟩ := hhas.entry_eq scanned target rest hsplit
  rw [hentry] at hentryEq
  have hscanned : ∀ q ∈ scanned, (s₂.notes.block q).exit ≠ none := by
    intro q hq
    obtain ⟨crossings, hcrossings, -⟩ := hhas.exit_fits q (by simp [hsplit, hq])
    rw [hcrossings]
    simp
  obtain ⟨earlier, q, later, hps, hq, hearlier, hqexit⟩ :=
    exists_of_firstExit_filter hscanned hentryEq.symm
  have hafterFits : s₂.Fits after.members := HasScanned.exits hhas q after hqexit
  have hbeforeSlots : n.ListsSlots before.members :=
    listsSlots_congr hinterval (listsSlots_of_fits hhas.orderly hfits)
  have hafterSlots : n.ListsSlots after.members :=
    listsSlots_congr hinterval (listsSlots_of_fits hhas.orderly hafterFits)
  have hagrees : n.Agrees e before.members after.members :=
    Notes.agrees_of_edge_eq hbeforeSlots hafterSlots hedge
  refine ⟨before, after, by rw [hblock]; exact hexit, by rw [hblock]; exact hentry,
    hbeforeSlots, hafterSlots, hagrees, hagrees.acrossEdge_eq, ?_,
    scanned, rest, earlier, q, later, hsplit, ?_, hq, hearlier, by rw [hblock]; exact hqexit⟩
  · rintro rfl
    exact hagrees.edge_eq_empty
  · rw [hblock, hhas.continues.predecessors_eq, hps]

/-- The edge back to the head of a loop, where one variable is moved and another is
restored. -/
theorem Program.compile_edges_agree_fibonacci :
    ∃ c, (Samples.fibonacci 10).compile { registers := 3 } = .ok c ∧ c.fault = none ∧
      2 ∈ c.ir.blocks c.graph ∧ (3, 3) ∈ c.graph.exits 2 ∧
      c.alloc.notes.edge 3 = ⟨[], [⟨some 1, some 0, 0⟩], [⟨some 1, 1⟩]⟩ ∧
      ∃ before after,
        (c.alloc.notes.block 2).exit = some before ∧ (c.alloc.notes.block 3).entry = some after ∧
        c.alloc.notes.Agrees 3 before.members after.members ∧
        c.alloc.notes.acrossEdge 3 (c.alloc.notes.registerIn before.members) =
          c.alloc.notes.registerIn after.members := by
  obtain ⟨c, hc, hfault, hb, he, hedge⟩ :
      ∃ c, (Samples.fibonacci 10).compile { registers := 3 } = .ok c ∧ c.fault = none ∧
        2 ∈ c.ir.blocks c.graph ∧ (3, 3) ∈ c.graph.exits 2 ∧
        c.alloc.notes.edge 3 = ⟨[], [⟨some 1, some 0, 0⟩], [⟨some 1, 1⟩]⟩ := by
    decide +kernel
  obtain ⟨before, after, hexit, hentry, -, -, hagrees, hacross, -⟩ :=
    Program.compile_edges_agree _ _ c hc hfault 2 3 3 hb he
  exact ⟨c, hc, hfault, hb, he, hedge, before, after, hexit, hentry, hagrees, hacross⟩

end LinearScan
