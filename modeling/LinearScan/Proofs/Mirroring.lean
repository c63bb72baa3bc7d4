import LinearScan.Proofs.Keeping
import LinearScan.Proofs.Trimming

/-!
# The scan without operands

A scan looks at operands in three places: it reads the variable of a load or a store, it
follows the edges with which a block ends, and it compares intervals.  The first two are not
affected by what is left out.  Here every step of the scan is shown to do the same on a state
from which operands are left out, provided that its comparisons do.
-/

namespace LinearScan

/-! ## The state of the allocator -/

namespace Allocator

/-- The state without the operands that are left out. -/
def trim (T : Trim) (s : Allocator) : Allocator :=
  { s with notes := s.notes.trim T, tree := s.tree.map (Tree.trim T) }

variable (T : Trim) (s : Allocator)

@[simp]
theorem notes_trim : (s.trim T).notes = s.notes.trim T :=
  rfl

@[simp]
theorem registers_trim : (s.trim T).registers = s.registers :=
  rfl

@[simp]
theorem active_trim : (s.trim T).active = s.active :=
  rfl

@[simp]
theorem slots_trim : (s.trim T).slots = s.slots :=
  rfl

@[simp]
theorem interval_trim (i : IntervalId) : (s.trim T).interval i = (s.interval i).trim T :=
  s.notes.interval_trim T i

/-- The variable that a load or a store names is its first operand. -/
theorem slotOf_trim {t : Tree} (ht : t.kind ≠ .const) :
    (s.trim T).slotOf (t.trim T) = s.slotOf t := by
  have hhead : ((s.trim T).notes.operands (t.trim T)).head? = (s.notes.operands t).head? := by
    rw [notes_trim, Notes.operands_trim, Notes.operands, List.head?_append, List.head?_append,
      T.head?_operands ht]
  rw [slotOf, slotOf, slots_trim]
  cases hos : s.notes.operands t with
  | nil =>
      rw [hos, List.head?_nil, List.head?_eq_none_iff] at hhead
      rw [hhead]
  | cons o os =>
      rw [hos, List.head?_cons, List.head?_eq_some_iff] at hhead
      obtain ⟨os', hos'⟩ := hhead
      rw [hos']

theorem preferred_trim (use : Tree) (number : Nat) (others : List Nat) :
    (s.trim T).preferred (use.trim T) number others = s.preferred use number others := by
  simp [preferred, List.any_map, Function.comp_def]

theorem choose_trim (pos : Nat) (i : IntervalId) : (s.trim T).choose pos i = s.choose pos i := by
  have hfree : (s.trim T).freeRegisters = s.freeRegisters := rfl
  simp only [choose, hfree]
  split
  · rfl
  · rfl
  · simp only [notes_trim, Notes.nextUse_trim]
    cases s.notes.nextUse i pos with
    | none => rfl
    | some use => exact congrArg (fun k => Except.ok (some (_, k))) (s.preferred_trim T use _ _)

theorem victim_trim (pos limit : Nat) (best : Option (IntervalId × Nat)) (is : List IntervalId) :
    (s.trim T).victim pos limit best is = s.victim pos limit best is := by
  induction is generalizing best with
  | nil => rfl
  | cons i is ih =>
      simp only [victim, notes_trim, Notes.nextUse_trim]
      cases s.notes.nextUse i pos with
      | none => rfl
      | some use => simp only [Option.map_some, Notes.index_trim, ih]

theorem name_trim (i : IntervalId) : (s.notes.trim T).name i = s.notes.name i := by
  rw [Notes.name, Notes.name, Notes.interval_trim, Interval.trim]
  cases (s.notes.interval i).owner with
  | slot k => rfl
  | temp t => simp [Owner.trim, Notes.ownerName]

theorem noVictim_trim (pos : Nat) : (s.trim T).noVictim pos = s.noVictim pos := by
  have hname : (s.notes.trim T).name = s.notes.name := funext (s.name_trim T)
  simp only [noVictim, notes_trim, registers_trim, active_trim, hname]

theorem expired_trim (pos : Nat) (i : IntervalId) :
    (s.trim T).expired pos i = s.expired pos i := by
  have hreuse : (s.trim T).reuse = s.reuse := rfl
  have hblock : (s.trim T).block = s.block := rfl
  simp only [expired, interval_trim, notes_trim, Interval.lastRead_trim, hreuse, hblock,
    Notes.nextUse_trim, Notes.nextWrite_trim]
  cases s.notes.nextUse i pos with
  | none => rfl
  | some use =>
      cases s.notes.nextWrite i pos with
      | none => rfl
      | some write => simp only [Option.map_some, Tree.block_trim, Notes.index_trim]

end Allocator

/-! ## Comparisons -/

/-- Two intervals compare with operands as without. -/
def Blind (T : Trim) (g : Graph) (n : Notes) (i j : IntervalId) : Prop :=
  alike (g.trim T) (n.trim T) (.interval i) (.interval j) = alike g n (.interval i) (.interval j)

/-- The notes `n'` say of the intervals what `n` says, apart from the registers they are in. -/
structure Notes.SameLives (n n' : Notes) : Prop where
  life_eq : ∀ i, (n'.interval i).life = (n.interval i).life
  index_eq : ∀ u, n'.index u = n.index u
  count_eq : n'.intervalCount = n.intervalCount

/-- Two intervals compare with operands as without, whatever registers they are in. -/
def Discerned (T : Trim) (g : Graph) (n : Notes) (i j : IntervalId) : Prop :=
  ∀ n', n.SameLives n' → Blind T g n' i j

namespace Notes.SameLives

variable {n n₁ n' : Notes}

theorem refl (n : Notes) : n.SameLives n :=
  ⟨fun _ => rfl, fun _ => rfl, rfl⟩

theorem trans (h : n.SameLives n₁) (h' : n₁.SameLives n') : n.SameLives n' where
  life_eq i := (h'.life_eq i).trans (h.life_eq i)
  index_eq u := (h'.index_eq u).trans (h.index_eq u)
  count_eq := h'.count_eq.trans h.count_eq

theorem owner_eq (h : n.SameLives n') (i : IntervalId) :
    (n'.interval i).owner = (n.interval i).owner :=
  (congrArg Interval.owner (h.life_eq i) :)

theorem modifyTree (n : Notes) (t : Tree) {f : TreeNote → TreeNote}
    (hf : ∀ note, (f note).index = note.index) : n.SameLives (n.modifyTree t f) :=
  ⟨fun _ => rfl, fun u => Alloc.index_modifyTree n t u (hf _), rfl⟩

theorem addSpill (n : Notes) (t : Tree) (sp : Spill) : n.SameLives (n.addSpill t sp) :=
  .modifyTree n t fun _ => rfl

theorem addRestore (n : Notes) (t : Tree) (r : Restore) : n.SameLives (n.addRestore t r) :=
  .modifyTree n t fun _ => rfl

theorem place (n : Notes) (i : IntervalId) (reg : Option Int) : n.SameLives (n.place i reg) :=
  ⟨fun j => n.life_place i j reg, fun _ => rfl, rfl⟩

end Notes.SameLives

section Comparisons

variable {T : Trim} {g : Graph} {n : Notes} {i : IntervalId}

/-- Taking an interval off a list compares it with those that stand before it. -/
theorem removeAlike_trim {is : List IntervalId}
    (h : ∀ j ∈ is.takeWhile (· != i), Blind T g n j i) :
    removeAlike (g.trim T) (n.trim T) i is = removeAlike g n i is := by
  induction is with
  | nil => rfl
  | cons j is ih =>
      by_cases hji : j = i
      · subst hji
        simp only [removeAlike, alike_self]
        rfl
      · rw [List.takeWhile_cons_of_pos (by simpa using hji)] at h
        have hhead : alike _ _ _ _ = _ := h j (by simp)
        simp only [removeAlike, hhead, ih fun k hk => h k (by simp [hk])]

theorem restoresAlike_trim {restores : List Restore}
    (h : ∀ r ∈ restores.takeWhile (·.interval != i), Blind T g n r.interval i) :
    restoresAlike (g.trim T) (n.trim T) i restores = restoresAlike g n i restores := by
  induction restores with
  | nil => rfl
  | cons r restores ih =>
      by_cases hri : r.interval = i
      · simp only [restoresAlike, hri, alike_self]
        rfl
      · rw [List.takeWhile_cons_of_pos (by simpa using hri)] at h
        have hhead : alike _ _ _ _ = _ := h r (by simp)
        simp only [restoresAlike, hhead, ih fun q hq => h q (by simp [hq])]

end Comparisons

namespace Alloc

open Allocator

variable (T : Trim) (g : Graph) (t : Tree) (s : Allocator)

/-- The comparisons by which `i` is found on the active list are not affected. -/
def Removable (i : IntervalId) : Prop :=
  ∀ j ∈ s.active.takeWhile (· != i), Discerned T g s.notes j i

/-- The comparisons that are made when `i` comes into a register at the tree `t` are not
affected. -/
structure Seatable (i : IntervalId) : Prop where
  reload : (s.interval i).owner.isResultOf t = false →
    ∀ r ∈ (s.notes.tree t).restores.takeWhile (·.interval != i),
      Discerned T g s.notes r.interval i
  evict : ∀ use v, s.notes.nextUse i (s.notes.index t) = some use →
    s.victim (s.notes.index t) (s.notes.index use) none s.active = some v → Removable T g s v

variable {T g t s} {i : IntervalId}

/-! ## Primitive steps -/

theorem modifyNotes_mirrors {f f' : Notes → Notes}
    (h : f' (s.notes.trim T) = (f s.notes).trim T) :
    Mirrors (Allocator.trim T) (modifyNotes f) (modifyNotes f') s :=
  mirrors_modify (congrArg (fun n => { s.trim T with notes := n }) h)

theorem interval_bind_mirrors {α : Type} {k k' : Interval → Alloc α}
    (h : Mirrors (Allocator.trim T) (k (s.interval i)) (k' ((s.interval i).trim T)) s) :
    Mirrors (Allocator.trim T) (Alloc.interval i >>= k) (Alloc.interval i >>= k') s := by
  rw [← interval_trim] at h
  exact h

theorem ofExcept_mirrors {α : Type} (x : Except Fault α) (s : Allocator) :
    Mirrors (Allocator.trim T) (ofExcept x) (ofExcept x) s := by
  cases x <;> rfl

theorem occupy_mirrors (reg : Option Int) (content : Option IntervalId) (s : Allocator) :
    Mirrors (Allocator.trim T) (occupy reg content) (occupy reg content) s := by
  refine mirrors_get_bind ((ofExcept_mirrors _ s).bind ?_)
  rintro k s₁ hk
  obtain ⟨-, rfl⟩ := ofExcept_cases hk
  rfl

theorem occupant_mirrors (reg : Option Int) (s : Allocator) :
    Mirrors (Allocator.trim T) (occupant reg) (occupant reg) s :=
  mirrors_get_bind ((ofExcept_mirrors _ s).bind fun _ s₁ _ => mirrors_pure _ s₁)

theorem setLiveIn_mirrors (i : IntervalId) (reg : Option Int) (s : Allocator) :
    Mirrors (Allocator.trim T) (setLiveIn i reg) (setLiveIn i reg) s :=
  modifyNotes_mirrors (s.notes.modifyInterval_trim T i fun _ => rfl)

theorem pushActive_mirrors (i : IntervalId) (s : Allocator) :
    Mirrors (Allocator.trim T) (pushActive i) (pushActive i) s :=
  rfl

theorem modifyTree_mirrors (t : Tree) (f : TreeNote → TreeNote) (s : Allocator) :
    Mirrors (Allocator.trim T) (modifyNotes fun n => n.modifyTree t f)
      (modifyNotes fun n => n.modifyTree (t.trim T) f) s :=
  modifyNotes_mirrors (s.notes.modifyTree_trim T t f)

theorem recordSpill_mirrors (t : Tree) (sp : Spill) (s : Allocator) :
    Mirrors (Allocator.trim T) (recordSpill t sp) (recordSpill (t.trim T) sp) s :=
  modifyTree_mirrors t _ s

theorem recordRestore_mirrors (t : Tree) (r : Restore) (s : Allocator) :
    Mirrors (Allocator.trim T) (recordRestore t r) (recordRestore (t.trim T) r) s :=
  modifyTree_mirrors t _ s

theorem dropActive_mirrors
    (h : ∀ j ∈ s.active.takeWhile (· != i), Blind T g s.notes j i) :
    Mirrors (Allocator.trim T) (dropActive g i) (dropActive (g.trim T) i) s := by
  have hremove : removeAlike (g.trim T) (s.trim T).notes i (s.trim T).active =
      removeAlike g s.notes i s.active := removeAlike_trim h
  rw [Mirrors, dropActive_apply, dropActive_apply, hremove]
  cases removeAlike g s.notes i s.active <;> rfl

/-! ## Releasing -/

theorem vacate_mirrors (i : IntervalId) (s : Allocator) :
    Mirrors (Allocator.trim T) (vacate i) (vacate i) s :=
  interval_bind_mirrors ((occupy_mirrors _ none s).bind fun _ s₁ _ => setLiveIn_mirrors i none s₁)

theorem releaseEach_mirrors (pos : Nat) (is : List IntervalId) (s : Allocator) :
    Mirrors (Allocator.trim T) (releaseEach pos is) (releaseEach pos is) s := by
  induction is generalizing s with
  | nil => exact mirrors_pure [] s
  | cons i is ih =>
      refine mirrors_get_bind ?_
      rw [expired_trim]
      split
      · exact (vacate_mirrors i s).bind fun _ s₁ _ => ih s₁
      · exact (ih s).bind fun _ s₁ _ => mirrors_pure _ s₁

theorem release_mirrors (t : Tree) (s : Allocator) :
    Mirrors (Allocator.trim T) (release t) (release (t.trim T)) s := by
  refine mirrors_get_bind ?_
  have hindex : (s.trim T).notes.index (t.trim T) = s.notes.index t := s.notes.index_trim T t
  rw [hindex]
  exact (releaseEach_mirrors _ s.active s).bind fun _ s₁ _ => rfl

/-! ## Spilling and activating -/

/-- The end of a spill, when the spill has been recorded. -/
theorem spill_end_mirrors {n : Notes} (h : Removable T g s i) (hlives : s.notes.SameLives n)
    (reg : Int) :
    Mirrors (Allocator.trim T)
      (do setLiveIn i none; dropActive g i; occupy (some reg) none; return reg : Alloc Int)
      (do setLiveIn i none; dropActive (g.trim T) i; occupy (some reg) none; return reg)
      { s with notes := n } := by
  refine (setLiveIn_mirrors i none _).bind fun _ s₂ hlive => ?_
  obtain rfl := setLiveIn_cases hlive
  refine (dropActive_mirrors fun j hj => ?_).bind fun _ s₃ _ => ?_
  · exact h j hj _ (hlives.trans (.place n i none))
  · exact (occupy_mirrors _ none s₃).bind fun _ s₄ _ => mirrors_pure reg s₄

theorem spill_mirrors (h : Removable T g s i) :
    Mirrors (Allocator.trim T) (spill g t i) (spill (g.trim T) (t.trim T) i) s := by
  refine mirrors_get_bind ?_
  simp only [interval_trim, Interval.liveIn_trim, Interval.owner_trim, Owner.isTemp_trim,
    notes_trim, Notes.nextUse_trim, Notes.index_trim]
  cases (s.interval i).liveIn with
  | none => exact mirrors_throw _ s
  | some reg =>
      refine (recordSpill_mirrors t _ s).bind fun _ s₁ hspill => ?_
      obtain rfl := recordSpill_cases hspill
      have hlives := Notes.SameLives.addSpill s.notes t { reg := some reg, interval := i }
      cases (s.interval i).owner.isTemp with
      | false =>
          simp only [Bool.false_eq_true, if_false]
          exact spill_end_mirrors h hlives reg
      | true =>
          simp only [if_true]
          cases s.notes.nextUse i (s.notes.index t) with
          | none => rfl
          | some use =>
              simp only [Option.map_some]
              refine (recordRestore_mirrors use _ _).bind fun _ s₁ hrestore => ?_
              obtain rfl := recordRestore_cases hrestore
              exact spill_end_mirrors h (hlives.trans (.addRestore _ use _)) reg

theorem recordReload_mirrors {reg : Nat}
    (h : (s.interval i).owner.isResultOf t = false →
      ∀ r ∈ (s.notes.tree t).restores.takeWhile (·.interval != i),
        Discerned T g s.notes r.interval i) :
    Mirrors (Allocator.trim T) (recordReload g t i reg)
      (recordReload (g.trim T) (t.trim T) i reg) s := by
  refine mirrors_get_bind ?_
  have hresult : ((s.trim T).interval i).owner.isResultOf (t.trim T) =
      (s.interval i).owner.isResultOf t := by
    rw [interval_trim]
    exact Owner.isResultOf_trim T _ t
  simp only [hresult]
  cases howner : (s.interval i).owner.isResultOf t with
  | true => exact mirrors_pure () s
  | false =>
      have halike : restoresAlike (g.trim T) (s.trim T).notes i
          ((s.trim T).notes.tree (t.trim T)).restores =
          restoresAlike g s.notes i (s.notes.tree t).restores := by
        rw [notes_trim, Notes.tree_trim]
        exact restoresAlike_trim fun r hr => h howner r hr s.notes (.refl _)
      simp only [Bool.not_false, if_true, halike]
      refine (ofExcept_mirrors _ s).bind fun found s₁ _ => ?_
      cases found with
      | true => exact mirrors_pure () s₁
      | false => exact recordRestore_mirrors t _ s₁

theorem tryActivate_mirrors (h : Seatable T g t s i) :
    Mirrors (Allocator.trim T) (tryActivate g t i) (tryActivate (g.trim T) (t.trim T) i) s := by
  refine mirrors_get_bind ?_
  have hchoose : (s.trim T).choose ((s.trim T).notes.index (t.trim T)) i =
      s.choose (s.notes.index t) i := by
    rw [choose_trim, notes_trim, Notes.index_trim]
  rw [hchoose]
  refine (ofExcept_mirrors _ s).bind fun choice s₁ hs₁ => ?_
  obtain ⟨-, rfl⟩ := ofExcept_cases hs₁
  cases choice with
  | none => exact mirrors_pure false s₁
  | some choice =>
      refine (recordReload_mirrors h.reload).bind fun _ s₂ _ => ?_
      refine (setLiveIn_mirrors i _ s₂).bind fun _ s₃ _ => ?_
      refine (occupy_mirrors _ _ s₃).bind fun _ s₄ _ => ?_
      exact (pushActive_mirrors i s₄).bind fun _ s₅ _ => mirrors_pure true s₅

theorem evictFor_mirrors (h : Seatable T g t s i) :
    Mirrors (Allocator.trim T) (evictFor g t i) (evictFor (g.trim T) (t.trim T) i) s := by
  refine mirrors_get_bind ?_
  simp only [notes_trim, Notes.index_trim, Notes.nextUse_trim, victim_trim, active_trim,
    noVictim_trim]
  cases huse : s.notes.nextUse i (s.notes.index t) with
  | none => exact mirrors_throw _ s
  | some use =>
      simp only [Option.map_some, Notes.index_trim]
      cases hvictim : s.victim (s.notes.index t) (s.notes.index use) none s.active with
      | none => exact mirrors_throw _ s
      | some v =>
          refine (spill_mirrors (h.evict use v huse hvictim)).bind fun reg s₁ _ => ?_
          refine (setLiveIn_mirrors i _ s₁).bind fun _ s₂ _ => ?_
          exact (occupy_mirrors _ _ s₂).bind fun _ s₃ _ => pushActive_mirrors i s₃

theorem activate_mirrors (h : (s.interval i).liveIn = none → Seatable T g t s i) :
    Mirrors (Allocator.trim T) (activate g t i) (activate (g.trim T) (t.trim T) i) s := by
  refine interval_bind_mirrors ?_
  rw [Interval.liveIn_trim]
  cases hlive : (s.interval i).liveIn with
  | some reg => exact mirrors_pure () s
  | none =>
      refine Mirrors.bind (tryActivate_mirrors (h hlive)) fun done s₁ htry => ?_
      cases done with
      | true => exact mirrors_pure () s₁
      | false =>
          rcases tryActivate_cases htry with ⟨-, -, rfl⟩ | ⟨⟨⟩, -⟩
          exact evictFor_mirrors (h hlive)

/-! ## What is recorded at a tree -/

theorem carrySpill_mirrors {sp : Spill} (h : Removable T g s sp.interval) :
    Mirrors (Allocator.trim T) (carrySpill g sp) (carrySpill (g.trim T) sp) s := by
  refine interval_bind_mirrors ?_
  simp only [Interval.liveIn_trim]
  refine mirrors_ite (fun _ => rfl) fun _ => mirrors_ite (fun _ => rfl) fun _ => ?_
  refine (dropActive_mirrors fun j hj => h j hj _ (.refl _)).bind fun _ s₁ _ => ?_
  exact (occupy_mirrors _ none s₁).bind fun _ s₂ _ => setLiveIn_mirrors _ none s₂

theorem carrySpills_mirrors {P : Allocator → Prop} {sps : List Spill}
    (hremove : ∀ s, P s → ∀ sp ∈ sps, Removable T g s sp.interval)
    (hstep : ∀ s s₁, P s → ∀ sp ∈ sps, carrySpill g sp s = .ok () s₁ → P s₁) (hs : P s) :
    Mirrors (Allocator.trim T) (carrySpills g sps) (carrySpills (g.trim T) sps) s := by
  induction sps generalizing s with
  | nil => exact mirrors_pure () s
  | cons sp sps ih =>
      refine (carrySpill_mirrors (hremove s hs sp (by simp))).bind fun _ s₁ hcarry => ?_
      exact ih (fun s hs sp hsp => hremove s hs sp (by simp [hsp]))
        (fun s s₁ hs sp hsp => hstep s s₁ hs sp (by simp [hsp]))
        (hstep s s₁ hs sp (by simp) hcarry)

theorem carryRestore_mirrors {k : Nat} {r : Restore}
    (h : (s.interval r.interval).liveIn = none → Seatable T g t s r.interval) :
    Mirrors (Allocator.trim T) (carryRestore g t k r) (carryRestore (g.trim T) (t.trim T) k r)
      s := by
  refine interval_bind_mirrors ?_
  rw [Interval.liveIn_trim]
  cases hlive : (s.interval r.interval).liveIn with
  | some reg => rfl
  | none =>
      refine (activate_mirrors h).bind fun _ s₁ _ => ?_
      exact interval_bind_mirrors (modifyTree_mirrors t _ s₁)

/-- Restores are carried out as long as `P` holds of those that are left. -/
theorem carryRestores_mirrors {P : List Restore → Allocator → Prop}
    (hseat : ∀ r rs s, P (r :: rs) s → (s.interval r.interval).liveIn = none →
      Seatable T g t s r.interval)
    (hstep : ∀ k r rs s s₁, P (r :: rs) s → carryRestore g t k r s = .ok () s₁ → P rs s₁)
    {k : Nat} {rs : List Restore} (hs : P rs s) :
    Mirrors (Allocator.trim T) (carryRestores g t k rs)
      (carryRestores (g.trim T) (t.trim T) k rs) s := by
  induction rs generalizing k s with
  | nil => exact mirrors_pure () s
  | cons r rs ih =>
      refine (carryRestore_mirrors (hseat r rs s hs)).bind fun _ s₁ hcarry => ?_
      exact ih (hstep k r rs s s₁ hs hcarry)

theorem recover_mirrors
    (hspills : ∀ s₁, release t { s with tree := some t, reuse := false } = .ok () s₁ →
      Mirrors (Allocator.trim T) (carrySpills g (s₁.notes.tree t).spills)
        (carrySpills (g.trim T) (s₁.notes.tree t).spills) s₁)
    (hrestores : ∀ s₁ s₂, release t { s with tree := some t, reuse := false } = .ok () s₁ →
      carrySpills g (s₁.notes.tree t).spills s₁ = .ok () s₂ →
      Mirrors (Allocator.trim T) (carryRestores g t 0 (s₂.notes.tree t).restores)
        (carryRestores (g.trim T) (t.trim T) 0 (s₂.notes.tree t).restores) s₂) :
    Mirrors (Allocator.trim T) (recover g t) (recover (g.trim T) (t.trim T)) s := by
  have hturn : Mirrors (Allocator.trim T)
      (modify fun s => { s with tree := some t, reuse := false } : Alloc Unit)
      (modify fun s => { s with tree := some (t.trim T), reuse := false }) s :=
    mirrors_modify rfl
  refine hturn.bind fun _ s₀ hs₀ => ?_
  cases hs₀
  refine (release_mirrors t _).bind fun _ s₁ hrelease => mirrors_get_bind ?_
  rw [notes_trim, Notes.tree_trim]
  refine (hspills s₁ hrelease).bind fun _ s₂ hcarry => mirrors_get_bind ?_
  rw [notes_trim, Notes.tree_trim]
  exact hrestores s₁ s₂ hrelease hcarry

/-! ## The register a tree needs -/

theorem setReg_mirrors (t : Tree) (reg : Int) (s : Allocator) :
    Mirrors (Allocator.trim T) (setReg t reg) (setReg (t.trim T) reg) s :=
  modifyTree_mirrors t _ s

/-- The register of an interval is noted at a tree, if it is in one. -/
theorem noteReg_mirrors (t : Tree) (i : IntervalId) (s : Allocator) :
    Mirrors (Allocator.trim T)
      (do match (← interval i).liveIn with
          | some reg => setReg t reg
          | none => pure ())
      (do match (← interval i).liveIn with
          | some reg => setReg (t.trim T) reg
          | none => pure ()) s := by
  refine interval_bind_mirrors ?_
  rw [Interval.liveIn_trim]
  cases (s.interval i).liveIn with
  | none => exact mirrors_pure () s
  | some reg => exact setReg_mirrors t reg s

/-- The comparisons that are made when the tree `t` gets the register it needs are not
affected. -/
structure Placeable (T : Trim) (g : Graph) (t : Tree) (s : Allocator) : Prop where
  load : t.kind = .ldLocal → ∀ i, s.slotOf t = .ok i → Seatable T g t s i
  store : t.kind = .stLocal → ∀ value rest k j, t.subtrees = value :: rest →
    Position.resolve s.registers.length (s.notes.reg value) = .ok k →
    (s.registers[k]?).join = some j → Removable T g s j
  result : t.kind ≠ .ldLocal → t.kind ≠ .stLocal → ∀ p, g.parent t = some p →
    Seatable T g t { s with notes := s.notes.addInterval (tempOf s.notes t p) }
      s.notes.intervalCount

theorem scanLoad_mirrors (hkind : t.kind = .ldLocal) (h : Placeable T g t s) :
    Mirrors (Allocator.trim T) (scanLoad g t) (scanLoad (g.trim T) (t.trim T)) s := by
  refine mirrors_get_bind ?_
  rw [slotOf_trim T s (by simp [hkind])]
  refine (ofExcept_mirrors _ s).bind fun i s₁ hslot => ?_
  obtain ⟨hslot, rfl⟩ := ofExcept_cases hslot
  refine (activate_mirrors fun _ => h.load hkind i hslot).bind fun _ s₂ _ => ?_
  exact noteReg_mirrors t i s₂

section

variable {reg : Int}
  (h : ∀ k j, Position.resolve s.registers.length reg = .ok k →
    (s.registers[k]?).join = some j → Removable T g s j)
include h

theorem clearFor_mirrors :
    Mirrors (Allocator.trim T) (clearFor g t reg) (clearFor (g.trim T) (t.trim T) reg) s := by
  refine (occupant_mirrors _ s).bind fun content s₁ hoccupant => ?_
  obtain ⟨k, hk, rfl, rfl⟩ := occupant_cases hoccupant
  cases hcontent : (s₁.registers[k]?).join with
  | none => exact mirrors_pure () s₁
  | some j =>
      have hremove := h k j hk hcontent
      refine interval_bind_mirrors ?_
      rw [Interval.owner_trim, Owner.isTemp_trim]
      cases (s₁.interval j).owner.isTemp with
      | true => exact dropActive_mirrors fun m hm => hremove m hm _ (.refl _)
      | false => exact (spill_mirrors hremove).bind fun _ s₂ _ => mirrors_pure () s₂

theorem settle_mirrors :
    Mirrors (Allocator.trim T) (settle g t i reg) (settle (g.trim T) (t.trim T) i reg) s := by
  refine (clearFor_mirrors h).bind fun _ s₁ _ => interval_bind_mirrors ?_
  rw [Interval.liveIn_trim]
  cases (s₁.interval i).liveIn with
  | none =>
      refine (pushActive_mirrors i s₁).bind fun _ s₂ _ => ?_
      exact (setLiveIn_mirrors i _ s₂).bind fun _ s₃ _ => occupy_mirrors _ _ s₃
  | some old =>
      have hemit : Mirrors (Allocator.trim T) (emit (toString old)) (emit (toString old)) s₁ := rfl
      refine hemit.bind fun _ s₂ _ => ?_
      refine (occupy_mirrors _ none s₂).bind fun _ s₃ _ => ?_
      exact (setLiveIn_mirrors i _ s₃).bind fun _ s₄ _ => occupy_mirrors _ _ s₄

end

theorem addStored_trim (n : Notes) (reg : Int) (us : List Tree) :
    (us.map (Tree.trim T)).foldl (fun n u => n.addStored u reg) (n.trim T) =
      (us.foldl (fun n u => n.addStored u reg) n).trim T := by
  induction us generalizing n with
  | nil => rfl
  | cons u us ih =>
      have hfirst : (n.trim T).addStored (u.trim T) reg = (n.addStored u reg).trim T :=
        n.modifyTree_trim T u _
      rw [List.map_cons, List.foldl_cons, List.foldl_cons, hfirst, ih]

theorem scanStore_mirrors (hkind : t.kind = .stLocal) (h : Placeable T g t s) :
    Mirrors (Allocator.trim T) (scanStore g t) (scanStore (g.trim T) (t.trim T)) s := by
  refine mirrors_get_bind ?_
  rw [slotOf_trim T s (by simp [hkind])]
  refine (ofExcept_mirrors _ s).bind fun i s₁ hslot => ?_
  obtain ⟨hslot, rfl⟩ := ofExcept_cases hslot
  have hstored : ∀ reg s₂, Mirrors (Allocator.trim T)
      (modifyNotes fun n => (g.sharers t).foldl (fun n u => n.addStored u reg) n)
      (modifyNotes fun n =>
        ((g.trim T).sharers (t.trim T)).foldl (fun n u => n.addStored u reg) n) s₂ := by
    intro reg s₂
    rw [Graph.sharers_trim]
    exact modifyNotes_mirrors (addStored_trim s₂.notes reg (g.sharers t))
  rw [Tree.subtrees_trim]
  cases hsubtrees : t.subtrees with
  | nil => exact mirrors_throw _ s₁
  | cons value rest =>
      refine mirrors_get_bind (interval_bind_mirrors ?_)
      rw [Interval.liveIn_trim, notes_trim, Notes.reg_trim]
      refine mirrors_ite (fun _ => ?_) fun _ => hstored _ s₁
      refine (settle_mirrors fun k j hk hj => ?_).bind fun _ s₂ _ => hstored _ s₂
      exact h.store hkind value rest k j hsubtrees hk hj

theorem tempOf_trim (n : Notes) (t p : Tree) :
    (tempOf n t p).trim T = tempOf (n.trim T) (t.trim T) (p.trim T) := by
  simp [tempOf, Interval.trim, Owner.trim]

theorem scanTemp_mirrors {p : Tree}
    (h : Seatable T g t { s with notes := s.notes.addInterval (tempOf s.notes t p) }
      s.notes.intervalCount) :
    Mirrors (Allocator.trim T) (scanTemp g t p) (scanTemp (g.trim T) (t.trim T) (p.trim T)) s := by
  refine mirrors_get_bind ?_
  have hcreate : Mirrors (Allocator.trim T)
      (modifyNotes fun n => n.addInterval (tempOf n t p))
      (modifyNotes fun n => n.addInterval (tempOf n (t.trim T) (p.trim T))) s := by
    refine modifyNotes_mirrors ?_
    rw [← tempOf_trim]
    exact s.notes.addInterval_trim T _
  refine hcreate.bind fun _ s₁ hs₁ => ?_
  obtain rfl := modifyNotes_cases hs₁
  exact (activate_mirrors fun _ => h).bind fun _ s₂ _ => noteReg_mirrors t _ s₂

theorem place_mirrors (h : Placeable T g t s) :
    Mirrors (Allocator.trim T) (place g t) (place (g.trim T) (t.trim T)) s := by
  rw [place, place, Tree.kind_trim]
  split
  · next hkind => exact scanLoad_mirrors hkind h
  · next hkind => exact scanStore_mirrors hkind h
  · next hload hstore =>
      rw [Graph.parent_trim]
      cases hparent : g.parent t with
      | none => exact mirrors_pure () s
      | some p => exact scanTemp_mirrors (h.result hload hstore p hparent)

theorem finish_mirrors {reuse : Bool}
    (h : ∀ s₁, (if reuse then release t else pure ()) { s with reuse } = .ok () s₁ →
      Placeable T g t s₁) :
    Mirrors (Allocator.trim T) (finish g t reuse) (finish (g.trim T) (t.trim T) reuse) s := by
  have hturn : Mirrors (Allocator.trim T) (modify fun s => { s with reuse } : Alloc Unit)
      (modify fun s => { s with reuse }) s :=
    mirrors_modify rfl
  refine hturn.bind fun _ s₀ hs₀ => ?_
  cases hs₀
  refine Mirrors.bind ?_ fun _ s₁ hrelease => place_mirrors (h s₁ hrelease)
  cases reuse with
  | true => exact release_mirrors t _
  | false => exact mirrors_pure () _

/-- The scan of a tree is mirrored when its two parts are. -/
theorem scanTree_mirrors
    (hrecover : Mirrors (Allocator.trim T) (recover g t) (recover (g.trim T) (t.trim T)) s)
    (hfinish : ∀ s₁, recover g t s = .ok () s₁ →
      Mirrors (Allocator.trim T) (finish g t s.reuse) (finish (g.trim T) (t.trim T) s.reuse) s₁) :
    Mirrors (Allocator.trim T) (scanTree g t) (scanTree (g.trim T) (t.trim T)) s := by
  have hboth := hrecover.bind fun _ s₁ h => hfinish s₁ h
  rw [Mirrors, scanTree_eq, scanTree_eq]
  exact hboth

end Alloc
end LinearScan
