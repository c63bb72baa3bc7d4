import LinearScan.Proofs.Reloads

/-!
# Where nothing can be spilled

An activation that finds no empty register looks for an active interval to spill, and passes
over those that are used before the interval that needs the register, or where it is used.  The
scan stops when all of them are passed over: `Allocator.NoRoom` says when that is so, and
`scan_lacksVictim_iff` that the scan of a program stops for this cause exactly when some tree
that is visited asks for a register while there is no room.
-/

namespace LinearScan

open Allocator

namespace Alloc

variable {α β : Type} {g : Graph} {t : Tree} {i : IntervalId} {s s₁ : Allocator}
  {x : Alloc α} {a : α} {f : α → Alloc β} {q : Allocator × IntervalId}

/-! ## Steps that lack a victim -/

/-- From the state `s`, the step stops because there is nothing to spill. -/
def LacksVictim (x : Alloc α) (s : Allocator) : Prop :=
  ∃ pos registers active s', x s = .error (.noVictim pos registers active) s'

theorem LacksVictim.bind (h : LacksVictim x s) (f : α → Alloc β) : LacksVictim (x >>= f) s := by
  obtain ⟨pos, registers, active, s', h⟩ := h
  exact ⟨pos, registers, active, s', bind_apply_eq_error_iff.mpr (Or.inl h)⟩

theorem lacksVictim_bind_of_ok (h : x s = .ok a s₁) :
    LacksVictim (x >>= f) s ↔ LacksVictim (f a) s₁ := by
  simp only [LacksVictim, bind_apply_of_ok h]

/-- If a victim is wanting, then `Q` holds. -/
def WantsOnlyIf (Q : Prop) (fault : Fault) : Prop :=
  ∀ pos registers active, fault = .noVictim pos registers active → Q

theorem admits_wantsOnlyIf (Q : Prop) (C : Fault → Prop) : Fault.Admits (WantsOnlyIf Q) C := by
  rintro fault - hplain pos registers active rfl
  exact hplain.elim

theorem takes_wantsOnlyIf (Q : Prop) (x : Allocator × IntervalId) :
    Takes (WantsOnlyIf Q) g x := by
  refine takes_of_record ?_ x
  rintro fault hrecord pos registers active rfl
  exact hrecord.elim

theorem finds_wantsOnlyIf (Q : Prop) (n : Notes) (i : IntervalId) (rs : List Restore) :
    MissingFor (WantsOnlyIf Q) (restoresAlike g n i rs) := by
  rintro fault h pos registers active rfl
  exact (missingFor_restoresAlike g n i rs _ h).elim

theorem Confined.of_lacksVictim {Q : Prop} (h : Confined (fun _ => False) (WantsOnlyIf Q) x s)
    (hlacks : LacksVictim x s) : Q := by
  obtain ⟨pos, registers, active, s', hstop⟩ := hlacks
  exact h.cause hstop pos registers active rfl

/-! ## Activations -/

/-- An activation stops for want of a victim where there is no room. -/
theorem activate_lacksVictim (h : s.NoRoom (s.notes.index t) i) :
    LacksVictim (activate g t i) s := by
  obtain ⟨hlive, hfree, use, huse, hpassed⟩ := h
  have htry : tryActivate g t i s = .ok false s := by
    rw [tryActivate, bind_apply_of_ok (get_apply s), choose_eq_none_iff.mpr hfree]
    rfl
  have hvictim := victim_eq_none_iff.mpr ⟨rfl, hpassed⟩
  rw [activate, lacksVictim_bind_of_ok (interval_apply i s), hlive, if_pos Option.isNone_none,
    lacksVictim_bind_of_ok htry, if_pos Bool.not_false, evictFor,
    lacksVictim_bind_of_ok (get_apply s)]
  simp [huse, hvictim, LacksVictim, Allocator.noVictim]

/-- An activation stops for want of a victim exactly when there is no room. -/
theorem activate_lacksVictim_iff :
    LacksVictim (activate g t i) s ↔ s.NoRoom (s.notes.index t) i := by
  constructor
  · exact Confined.of_lacksVictim (confined_activate (admits_wantsOnlyIf _ _)
      ⟨fun _ => finds_wantsOnlyIf _ _ _ _, fun y _ => takes_wantsOnlyIf _ y,
        fun hroom _ _ _ _ => hroom⟩)
  · exact activate_lacksVictim

/-! ## The scan of a tree -/

/-- The request `q` of the tree `t` finds no room. -/
def Unmet (t : Tree) (q : Allocator × IntervalId) : Prop :=
  q.1.NoRoom (q.1.notes.index t) q.2

theorem carryRestores_lacksVictim {k : Nat} {rs : List Restore}
    (hq : q ∈ restoreRequests g t k rs s) (h : Unmet t q) :
    LacksVictim (carryRestores g t k rs) s := by
  induction rs generalizing k s with
  | nil => cases hq
  | cons r rs ih =>
      rw [restoreRequests] at hq
      rw [carryRestores]
      rcases List.mem_cons.mp hq with rfl | hq
      · refine LacksVictim.bind ?_ _
        rw [carryRestore, lacksVictim_bind_of_ok (interval_apply _ s), h.1]
        exact (activate_lacksVictim h).bind _
      · cases hfirst : carryRestore g t k r s with
        | error fault s₁ =>
            rw [hfirst] at hq
            cases hq
        | ok a s₁ =>
            rw [hfirst] at hq
            rw [lacksVictim_bind_of_ok hfirst]
            exact ih hq

theorem prepare_lacksVictim (hq : q ∈ recordedRequests g t s) (h : Unmet t q) :
    LacksVictim (prepare g t) s := by
  rw [recordedRequests] at hq
  rw [prepare, lacksVictim_bind_of_ok (get_apply s), lacksVictim_bind_of_ok (modify_apply _ s)]
  cases hfirst : release t { s with reuse := false } with
  | error fault s₁ => simp [bind, EStateM.bind, hfirst] at hq
  | ok a s₁ =>
      rw [bind_apply_of_ok hfirst, bind_apply_of_ok (get_apply s₁)] at hq
      rw [lacksVictim_bind_of_ok hfirst, lacksVictim_bind_of_ok (get_apply s₁)]
      cases hsecond : carrySpills g (s₁.notes.tree t).spills s₁ with
      | error fault s₂ =>
          rw [hsecond] at hq
          cases hq
      | ok a s₂ =>
          rw [hsecond] at hq
          rw [lacksVictim_bind_of_ok hsecond, lacksVictim_bind_of_ok (get_apply s₂)]
          exact (carryRestores_lacksVictim hq h).bind _

theorem place_lacksVictim (hq : q ∈ placeRequests g t s) (h : Unmet t q) :
    LacksVictim (place g t) s := by
  rw [placeRequests] at hq
  rw [place]
  cases hkind : t.kind with
  | stLocal =>
      simp only [hkind] at hq
      cases hq
  | ldLocal =>
      simp only [hkind] at hq ⊢
      cases hslot : s.slotOf t with
      | error fault =>
          rw [hslot] at hq
          cases hq
      | ok i =>
          rw [hslot] at hq
          obtain rfl := List.mem_singleton.mp hq
          have hfound : (ofExcept (.ok i) : Alloc IntervalId) s = .ok i s := rfl
          rw [scanLoad, lacksVictim_bind_of_ok (get_apply s), hslot, lacksVictim_bind_of_ok hfound]
          exact (activate_lacksVictim h).bind _
  | _ =>
      simp only [hkind] at hq ⊢
      cases hparent : g.parent t with
      | none =>
          rw [hparent] at hq
          cases hq
      | some p =>
          rw [hparent] at hq
          obtain rfl := List.mem_singleton.mp hq
          dsimp only
          rw [scanTemp, lacksVictim_bind_of_ok (get_apply s), modifyNotes,
            lacksVictim_bind_of_ok (modify_apply _ s)]
          exact (activate_lacksVictim h).bind _

/-- The scan of a tree stops for want of a victim where one of its requests finds no room. -/
theorem scanTree_lacksVictim (hq : q ∈ requests g t s) (h : Unmet t q) :
    LacksVictim (scanTree g t) s := by
  rw [scanTree, lacksVictim_bind_of_ok (modify_apply _ s)]
  rcases List.mem_append.mp hq with hq | hq
  · exact (prepare_lacksVictim hq h).bind _
  · cases hprepare : prepare g t { s with tree := some t } with
    | error fault s₁ =>
        rw [hprepare] at hq
        cases hq
    | ok a s₁ =>
        rw [hprepare] at hq
        rw [lacksVictim_bind_of_ok hprepare]
        exact place_lacksVictim hq h

/-! ## The scan of a program -/

theorem scanTrees_lacksVictim {ts : List Tree} {v : Visit} (hv : v ∈ visitTrees g ts s)
    (h : LacksVictim (scanTree g v.tree) v.before) : LacksVictim (scanTrees g ts) s := by
  induction ts generalizing s with
  | nil => cases hv
  | cons t ts ih =>
      rw [visitTrees] at hv
      rw [scanTrees]
      rcases List.mem_cons.mp hv with rfl | hv
      · exact h.bind _
      · cases hfirst : scanTree g t s with
        | error fault s₁ =>
            rw [hfirst] at hv
            cases hv
        | ok a s₁ =>
            rw [hfirst] at hv
            rw [lacksVictim_bind_of_ok hfirst]
            exact ih hv

theorem scanBlocks_lacksVictim {bs : List BlockId} {v : Visit} (hv : v ∈ visitBlocks g bs s)
    (h : LacksVictim (scanTree g v.tree) v.before) : LacksVictim (scanBlocks g bs) s := by
  induction bs generalizing s with
  | nil => cases hv
  | cons b bs ih =>
      rw [visitBlocks] at hv
      rw [scanBlocks]
      cases hfirst : enter b s with
      | error fault s₁ =>
          rw [hfirst] at hv
          cases hv
      | ok a s₁ =>
          rw [hfirst] at hv
          rcases List.mem_append.mp hv with hv | hv
          · refine LacksVictim.bind ?_ _
            rw [scanBlock, lacksVictim_bind_of_ok hfirst]
            exact (scanTrees_lacksVictim hv h).bind _
          · cases hblock : scanBlock g b s with
            | error fault s₂ =>
                rw [hblock] at hv
                cases hv
            | ok a s₂ =>
                rw [hblock] at hv
                rw [lacksVictim_bind_of_ok hblock]
                exact ih hv

/-- A scan stops for want of a victim exactly when a tree that is visited asks for a register
while there is no room. -/
theorem scan_lacksVictim_iff {ir : Ir} :
    LacksVictim (scan g ir) s ↔
      ∃ s₁, survey g ir s = .ok () s₁ ∧
        ∃ v ∈ visitBlocks g (ir.blocks g) s₁, ∃ q ∈ v.requests g, Unmet v.tree q := by
  constructor
  · refine Confined.of_lacksVictim (confined_scan (admits_wantsOnlyIf _ _)
      (admits_wantsOnlyIf _ _) (admits_wantsOnlyIf _ _) fun s₁ hsurvey v hv => ?_)
    exact confined_scanTree (admits_wantsOnlyIf _ _) nofun (fun y _ => takes_wantsOnlyIf _ y)
      (fun _ _ _ => finds_wantsOnlyIf _ _ _ _)
      fun q hq hroom _ _ _ _ => ⟨s₁, hsurvey, v, hv, q, hq, hroom⟩
  · rintro ⟨s₁, hsurvey, v, hv, q, hq, hunmet⟩
    rw [scan, lacksVictim_bind_of_ok hsurvey]
    exact (scanBlocks_lacksVictim hv (scanTree_lacksVictim hq hunmet)).bind _

end Alloc
end LinearScan
