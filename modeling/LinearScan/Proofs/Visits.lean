import LinearScan.Proofs.Placement
import LinearScan.Proofs.Stacking

/-!
# The scans that have begun

The trace of a run lists the scans of trees that came to their end.  `Program.visits` lists
those that have begun, so the scan at which a run stops is the last of them.  Of every visit we
show what the step lemmas ask for: the invariant of the temporaries holds in the state in which
it begins, the temporaries are stacked there, and as long as no activation has slipped the records
of the registers agree.
A step of a run that returns is then a visit that has come to its end, together with the state
at the end of the run.
-/

namespace LinearScan

open Allocator

/-- Some activation of the visit notes another register than the one that is filled. -/
def Visit.Slips (g : Graph) (v : Visit) : Prop :=
  ∃ q ∈ v.requests g, Alloc.Slips v.tree q

instance (g : Graph) (v : Visit) : Decidable (v.Slips g) :=
  inferInstanceAs (Decidable (∃ q ∈ v.requests g, Alloc.Slips v.tree q))

/-- The visits of the scan of a program. -/
def Program.visits (p : Program) (settings : Settings) : List Visit :=
  match p.import? with
  | .ok m =>
      match Alloc.survey m.graph m.ir
          (Allocator.create m.notes settings.registers settings.reuse) with
      | .ok _ s => Alloc.visitBlocks m.graph (m.ir.blocks m.graph) s
      | .error _ _ => []
  | .error _ => []

theorem Steady.consistent {size : Int} {xs : List Step} (h : Steady size xs)
    (hslips : ∀ x ∈ xs, ¬ x.Slips) : ∀ x ∈ xs, x.after.Consistent size := by
  have hall := h.take_iff xs.length
  rw [List.take_length] at hall
  exact hall.mpr hslips

namespace Alloc

variable {g : Graph} {pending past before ts rest : List Tree} {t : Tree} {b : BlockId}
  {s₀ s s₁ s' : Allocator} {size : Int} {i : Nat} {N : Prop} {scanned bs : List BlockId}

/-! ## Steps are visits that have ended -/

/-- The visit `v` ends, and `x` is the step that has been made. -/
structure Ends (g : Graph) (v : Visit) (x : Step) : Prop where
  tree_eq : x.tree = v.tree
  requests_eq : x.requests = v.requests g
  scan_eq : scanTree g v.tree v.before = .ok () x.after

theorem exists_visit_of_mem_traceTrees {x : Step} (hx : x ∈ traceTrees g ts s) :
    ∃ v ∈ visitTrees g ts s, Ends g v x := by
  induction ts generalizing s with
  | nil => cases hx
  | cons t ts ih =>
      rw [traceTrees] at hx
      cases hscan : scanTree g t s with
      | error fault s' =>
          rw [hscan] at hx
          cases hx
      | ok value s' =>
          rw [hscan] at hx
          rw [visitTrees, hscan]
          rcases List.mem_cons.mp hx with rfl | hx
          · exact ⟨⟨t, s⟩, by simp, rfl, rfl, hscan⟩
          · obtain ⟨v, hv, hends⟩ := ih hx
            exact ⟨v, List.mem_cons_of_mem _ hv, hends⟩

theorem exists_visit_of_mem_traceBlocks {x : Step} (hx : x ∈ traceBlocks g bs s) :
    ∃ v ∈ visitBlocks g bs s, Ends g v x := by
  induction bs generalizing s with
  | nil => cases hx
  | cons b bs ih =>
      rw [traceBlocks] at hx
      rw [visitBlocks]
      cases henter : enter b s with
      | error fault s₁ =>
          rw [henter] at hx
          cases hx
      | ok value s₁ =>
          rw [henter] at hx
          dsimp only at hx ⊢
          rcases List.mem_append.mp hx with hx | hx
          · obtain ⟨v, hv, hends⟩ := exists_visit_of_mem_traceTrees hx
            exact ⟨v, List.mem_append_left _ hv, hends⟩
          · cases hscan : scanBlock g b s with
            | error fault s' =>
                rw [hscan] at hx
                cases hx
            | ok value s' =>
                rw [hscan] at hx
                obtain ⟨v, hv, hends⟩ := ih hx
                exact ⟨v, List.mem_append_right _ hv, hends⟩

theorem Ends.slips_iff {v : Visit} {x : Step} (h : Ends g v x) : x.Slips ↔ v.Slips g := by
  rw [Step.Slips, Visit.Slips, h.requests_eq, h.tree_eq]

/-! ## The phases of a visit

At a tree that has not been scanned yet no spill is recorded.  So its scan consists of the
release of registers, the recorded restores, the release of the operands' registers if results
may go there, and the placing of the tree. -/

section

variable (hrest : Rested g past s) (htrees : g.treesFrom 0 = past ++ t :: rest)
include hrest htrees

theorem scanTree_phases :
    scanTree g t s =
      match release t { s with tree := some t, reuse := false } with
      | .ok _ s₁ =>
          match carryRestores g t 0 (s₁.notes.tree t).restores s₁ with
          | .ok _ s₂ =>
              match (if s.reuse then release t else pure ()) { s₂ with reuse := s.reuse } with
              | .ok _ s₃ => place g t s₃
              | .error fault s₃ => .error fault s₃
          | .error fault s₂ => .error fault s₂
      | .error fault s₁ => .error fault s₁ := by
  rw [scanTree_eq]
  simp only [bind, EStateM.bind, recover, modify_apply]
  cases hrelease : release t { s with tree := some t, reuse := false } with
  | error fault s₁ => rfl
  | ok value s₁ =>
      simp only [get_apply, spills_of_release hrest htrees hrelease, carrySpills, pure_apply]
      cases hcarry : carryRestores g t 0 (s₁.notes.tree t).restores s₁ with
      | error fault s₂ => rfl
      | ok value s₂ =>
          simp only [finish, bind, EStateM.bind, modify_apply]
          generalize (if s.reuse = true then release t else pure ()) _ = result
          cases result <;> rfl

theorem requests_phases :
    requests g t s =
      match release t { s with tree := some t, reuse := false } with
      | .ok _ s₁ =>
          restoreRequests g t 0 (s₁.notes.tree t).restores s₁ ++
            match carryRestores g t 0 (s₁.notes.tree t).restores s₁ with
            | .ok _ s₂ =>
                match (if s.reuse then release t else pure ()) { s₂ with reuse := s.reuse } with
                | .ok _ s₃ => placeRequests g t s₃
                | .error _ _ => []
            | .error _ _ => []
      | .error _ _ => [] := by
  simp only [requests, recordedRequests, prepare, bind, EStateM.bind, get_apply, modify_apply]
  cases hrelease : release t { s with tree := some t, reuse := false } with
  | error fault s₁ => rfl
  | ok value s₁ =>
      simp only [spills_of_release hrest htrees hrelease, carrySpills, pure_apply]
      cases hcarry : carryRestores g t 0 (s₁.notes.tree t).restores s₁ with
      | error fault s₂ => simp
      | ok value s₂ => rfl

/-- The states between the phases of a scan that returns. -/
theorem phases_of_scanTree (h : scanTree g t s = .ok () s') :
    ∃ s₁ s₂ s₃, release t { s with tree := some t, reuse := false } = .ok () s₁ ∧
      carryRestores g t 0 (s₁.notes.tree t).restores s₁ = .ok () s₂ ∧
      (if s.reuse then release t else pure ()) { s₂ with reuse := s.reuse } = .ok () s₃ ∧
      place g t s₃ = .ok () s' ∧
      requests g t s =
        restoreRequests g t 0 (s₁.notes.tree t).restores s₁ ++ placeRequests g t s₃ := by
  rw [scanTree_phases hrest htrees] at h
  rw [requests_phases hrest htrees]
  cases hrelease : release t { s with tree := some t, reuse := false } with
  | error fault s₁ => simp only [hrelease] at h; cases h
  | ok value s₁ =>
      simp only [hrelease] at h ⊢
      cases hcarry : carryRestores g t 0 (s₁.notes.tree t).restores s₁ with
      | error fault s₂ => simp only [hcarry] at h; cases h
      | ok value s₂ =>
          simp only [hcarry] at h ⊢
          cases hyield : (if s.reuse then release t else pure ()) { s₂ with reuse := s.reuse } with
          | error fault s₃ => simp only [hyield] at h; cases h
          | ok value s₃ =>
              simp only [hyield] at h ⊢
              exact ⟨s₁, s₂, s₃, rfl, hcarry, hyield, h, rfl⟩

end

/-! ## Operand reuse

A scan of a tree turns the reuse of operands off and on again; nothing else touches it. -/

theorem reuse_release (h : release t s = .ok () s') : s'.reuse = s.reuse := by
  obtain ⟨kept, s₁, hsifted, rfl⟩ := release_cases h
  obtain ⟨registers, -, rfl⟩ := hsifted.state_eq
  rfl

theorem reuse_spill {reg : Int} (h : spill g t i s = .ok reg s') : s'.reuse = s.reuse := by
  obtain ⟨use, k, rest, -, -, -, -, rfl⟩ := spill_cases h
  rfl

theorem Activated.reuse_eq (h : Activated g t i s s') : s'.reuse = s.reuse := by
  cases h with
  | already reg hlive => rfl
  | free number filled n hlive hchoose hreload hfilled => rfl
  | evicted use v reg k s₁ hlive hchoose huse hvictim hspill hk =>
      show s₁.reuse = s.reuse
      exact reuse_spill hspill

theorem reuse_settle {reg : Int} (h : settle g t i reg s = .ok () s') : s'.reuse = s.reuse := by
  obtain ⟨s₁, s₂, k, hclear, hunseated, -, rfl⟩ := settle_cases h
  have hclear' : s₁.reuse = s.reuse := by
    obtain ⟨k, -, ⟨-, rfl⟩ | ⟨j, -, ⟨-, rest, -, rfl⟩ | ⟨-, reg', hspill⟩⟩⟩ := clearFor_cases hclear
    · rfl
    · rfl
    · exact reuse_spill hspill
  cases hunseated with
  | moved log hlive hk => exact hclear'
  | entered hlive => exact hclear'

theorem reuse_place (h : place g t s = .ok () s') : s'.reuse = s.reuse := by
  rcases place_cases h with ⟨-, hload⟩ | ⟨-, hstore⟩ | ⟨-, -, ⟨p, -, htemp⟩ | ⟨-, rfl⟩⟩
  · obtain ⟨i, s₁, -, hactivated, rfl⟩ := scanLoad_cases hload
    exact hactivated.reuse_eq
  · obtain ⟨i, value, rest, s₁, -, -, hsettle, rfl⟩ := scanStore_cases hstore
    split at hsettle
    · rw [hsettle]
    · show s₁.reuse = s.reuse
      exact reuse_settle hsettle
  · obtain ⟨s₁, hactivated, rfl⟩ := scanTemp_cases htemp
    exact hactivated.reuse_eq
  · rfl

theorem reuse_scanTree (h : scanTree g t s = .ok () s') : s'.reuse = s.reuse := by
  rw [scanTree_eq] at h
  obtain ⟨⟨⟩, s₁, -, hfinish⟩ := exists_of_bind_apply_eq_ok h
  obtain ⟨⟨⟩, s₂, hmodify, hrest⟩ := exists_of_bind_apply_eq_ok hfinish
  obtain ⟨⟨⟩, s₃, hrelease, hplace⟩ := exists_of_bind_apply_eq_ok hrest
  cases hmodify
  rw [reuse_place hplace]
  split at hrelease
  · rw [reuse_release hrelease]
  · obtain ⟨-, rfl⟩ := pure_cases hrelease
    rfl

theorem reuse_scanTrees (h : scanTrees g ts s = .ok () s') : s'.reuse = s.reuse := by
  induction ts generalizing s with
  | nil =>
      obtain ⟨-, rfl⟩ := pure_cases h
      rfl
  | cons t ts ih =>
      obtain ⟨⟨⟩, s₁, hfirst, hlast⟩ := exists_of_bind_apply_eq_ok h
      rw [ih hlast, reuse_scanTree hfirst]

theorem Seated.block_eq {cs : List Crossing} (h : Seated cs s s') : s'.block = s.block := by
  induction h with
  | nil => rfl
  | cons _ _ ih => exact ih

theorem Seated.reuse_eq {cs : List Crossing} (h : Seated cs s s') : s'.reuse = s.reuse := by
  induction h with
  | nil => rfl
  | cons _ _ ih => exact ih

theorem reuse_enter (h : enter b s = .ok () s') : s'.reuse = s.reuse := by
  rcases enter_cases h with ⟨-, rfl⟩ | ⟨crossings, s₁, -, -, hseated, rfl⟩
  · rfl
  · exact hseated.reuse_eq

theorem reuse_scanBlock (h : scanBlock g b s = .ok () s') : s'.reuse = s.reuse := by
  obtain ⟨s₁, s₂, henter, htrees, hdepart⟩ := scanBlock_cases h
  obtain ⟨kept, s₃, hsifted, rfl⟩ := depart_cases hdepart
  obtain ⟨registers, -, rfl⟩ := hsifted.state_eq
  exact (reuse_scanTrees htrees).trans (reuse_enter henter)

/-! ## Where a visit begins -/

/-- Where a block starts, it is the block that is scanned. -/
theorem block_enter (h : enter b s = .ok () s') : s'.block = some b := by
  rcases enter_cases h with ⟨-, rfl⟩ | ⟨crossings, s₁, -, -, hseated, rfl⟩
  · rfl
  · exact hseated.block_eq

/-- A visit begins, in a run over the blocks from the state `s₀`, where the trees `past` of other
blocks and the trees `before` of its own block have been scanned, their temporaries are kept, and
those that are active form a stack.  The last part supposes `N`, on which the run has no slips. -/
structure Begun (g : Graph) (s₀ : Allocator) (N : Prop) (past before : List Tree) (v : Visit) :
    Prop where
  trees : ∃ future, g.treesFrom 0 = (past ++ before) ++ v.tree :: future
  block : ∃ b ∈ g.blocksFrom 0, v.before.block = some b ∧
    ∃ after, g.treesOf b = before ++ v.tree :: after
  rested : Rested g (past ++ before) v.before
  stacked : StackedAfter g past before v.before
  subtrees_reg : ∀ u ∈ v.tree.subtrees, 0 ≤ v.before.notes.reg u
  continues : s₀.Continues v.before
  reuse_eq : v.before.reuse = s₀.reuse
  filed : N → Filed v.before.registers v.before.active v.before.notes

theorem visitTrees_begun (hg : g.Formed pending) (hb : b ∈ g.blocksFrom 0)
    (hall : g.treesFrom 0 = past ++ (g.treesOf b ++ rest)) (htrees : g.treesOf b = before ++ ts)
    (hblock : s.block = some b) (hscan : s.Scanning g before) (hrest : Rested g (past ++ before) s)
    (hstacks : StackedAfter g past before s) (hcontinues : s₀.Continues s)
    (hreuse : s.reuse = s₀.reuse)
    (hfiled : N → Proper g size before s ∧ Filed s.registers s.active s.notes)
    (hslips : N → ∀ v ∈ visitTrees g ts s, ¬ v.Slips g) :
    ∀ v ∈ visitTrees g ts s, ∃ before, Begun g s₀ N past before v := by
  induction ts generalizing s before with
  | nil =>
      intro v hv
      cases hv
  | cons t ts ih =>
      have hsplit := treesFrom_of_treesOf hall htrees
      have hregs := Scanning.subtrees_reg hg hscan htrees
      intro v hv
      rw [visitTrees] at hv hslips
      rcases List.mem_cons.mp hv with rfl | hv
      · exact ⟨before, ⟨_, hsplit⟩, ⟨b, hb, hblock, ts, htrees⟩, hrest, hstacks, hregs, hcontinues,
          hreuse, fun hN => (hfiled hN).2⟩
      · cases hfirst : scanTree g t s with
        | error fault s' =>
            rw [hfirst] at hv
            cases hv
        | ok value s' =>
            rw [hfirst] at hv hslips
            have hmoves := scanTree_moves hg.twins_eq hfirst
            have hrest' := (scanTree_rested hg hsplit hrest hregs hfirst).1
            rw [List.append_assoc] at hrest'
            refine ih (by simp [htrees]) (hmoves.extends.block_eq.trans hblock)
              (scanTree_scanning hg hscan htrees hfirst) hrest'
              (scanTree_stackedAfter hg hsplit hrest hregs hstacks hfirst)
              (hcontinues.trans hmoves.extends.toContinues)
              ((reuse_scanTree hfirst).trans hreuse) ?_ ?_ v hv
            · intro hN
              obtain ⟨hproper, hrecords⟩ := hfiled hN
              refine ⟨scanTree_proper hg hb htrees hproper hfirst, ?_⟩
              refine hmoves.filed hscan.orderly hregs ?_ hrecords
              intro q hq hslip
              exact hslips hN ⟨t, s⟩ (by simp) ⟨q, hq, hslip⟩
            · intro hN w hw
              exact hslips hN w (List.mem_cons_of_mem _ hw)

theorem visitBlocks_begun (hg : g.Formed pending) (hsplit : g.blocksFrom 0 = scanned ++ bs)
    (hs : HasScanned g s₀ scanned s) (hrest : Rested g (scanned.flatMap g.treesOf) s)
    (hreuse : s.reuse = s₀.reuse) (hsettled : N → Settled g size s)
    (hslips : N → ∀ v ∈ visitBlocks g bs s, ¬ v.Slips g) :
    ∀ v ∈ visitBlocks g bs s, ∃ past before, Begun g s₀ N past before v := by
  induction bs generalizing s scanned with
  | nil =>
      intro v hv
      cases hv
  | cons b bs ih =>
      have hb : b ∈ g.blocksFrom 0 := by simp [hsplit]
      intro v hv
      rw [visitBlocks] at hv hslips
      cases henter : enter b s with
      | error fault s₁ =>
          rw [henter] at hv
          cases hv
      | ok value s₁ =>
          rw [henter] at hv hslips
          dsimp only at hv hslips
          obtain ⟨hrest₁, hscan₁⟩ := enter_rested hg hs hrest henter
          rcases List.mem_append.mp hv with hv | hv
          · have hentered := enter_entered hs.orderly (HasScanned.exits hs) henter
            refine ⟨_, visitTrees_begun hg hb (treesFrom_split hsplit) rfl (block_enter henter)
              hscan₁ (by rwa [List.append_nil]) (enter_stackedAfter hs henter _)
              (hs.continues.trans hentered.continues) ((reuse_enter henter).trans hreuse)
              (fun hN => enter_proper hs (hsettled hN) henter) ?_ v hv⟩
            intro hN w hw
            exact hslips hN w (List.mem_append_left _ hw)
          · cases hscan : scanBlock g b s with
            | error fault s' =>
                rw [hscan] at hv
                cases hv
            | ok value s' =>
                rw [hscan] at hv hslips
                refine ih (by simp [hsplit])
                  (scanBlock_hasScanned hg hs (hg.not_mem_of_blocksFrom_eq hsplit) hscan)
                  (scanBlock_rested hg hsplit hs hrest hscan).1
                  ((reuse_scanBlock hscan).trans hreuse) ?_ ?_ v hv
                · intro hN
                  obtain ⟨hproper, hfiled⟩ := enter_proper hs (hsettled hN) henter
                  refine scanBlock_settled hg hb hs (hsettled hN) henter hscan ?_
                  refine (traceTrees_steady hg hb rfl hproper hfiled).consistent ?_
                  intro x hx
                  obtain ⟨w, hw, hends⟩ := exists_visit_of_mem_traceTrees hx
                  rw [hends.slips_iff]
                  exact hslips hN w (List.mem_append_left _ hw)
                · intro hN w hw
                  exact hslips hN w (List.mem_append_right _ hw)

end Alloc

/-! ## The visits of a program -/

open Alloc

/-- In a program whose trees are reached once each, every visit begins as it should. -/
theorem Program.visits_begun {p : Program} {settings : Settings} {m : Imported}
    (h : p.import? = .ok m) (honce : ((m.ir.trees m.graph).map Tree.id).Nodup) {N : Prop}
    (hslips : N → ∀ v ∈ p.visits settings, ¬ v.Slips m.graph) :
    ∀ v ∈ p.visits settings, ∃ s₀ past before,
      survey m.graph m.ir (Allocator.create m.notes settings.registers settings.reuse) = .ok () s₀ ∧
        Begun m.graph s₀ N past before v := by
  obtain ⟨⟨pending, hg⟩, hfresh, hfirst⟩ := Program.import?_formed h
  intro v hv
  simp only [Program.visits, h, Ir.blocks, hfirst] at hv hslips
  cases hsurvey : survey m.graph m.ir
      (Allocator.create m.notes settings.registers settings.reuse) with
  | error fault s₀ =>
      rw [hsurvey] at hv
      cases hv
  | ok value s₀ =>
      rw [hsurvey] at hv hslips
      obtain ⟨past, before, hbegun⟩ := visitBlocks_begun hg rfl (survey_hasScanned hfresh hsurvey).1
        (survey_rested hfresh (Program.import?_sorted h honce) hsurvey) rfl
        (fun _ => survey_settled hfresh (Program.import?_rising h) hsurvey) hslips v hv
      exact ⟨s₀, past, before, rfl, hbegun⟩

/-- When the scan of a program returns, every step goes from a state in which the invariant of
the temporaries holds, and what it leaves in the notes on its tree is final. -/
theorem Program.compile_scanned {p : Program} {settings : Settings} {c : Compiled}
    (h : p.compile settings = .ok c) (honce : ((c.ir.trees c.graph).map Tree.id).Nodup)
    (hfault : c.fault = none) :
    ∃ pending fin, c.graph.Formed pending ∧
      (p.steps settings).map Step.tree = c.ir.trees c.graph ∧
      (∀ t, c.alloc.notes.tree t = fin.notes.tree t) ∧
      (∀ i, c.alloc.interval i = fin.interval i) ∧
      ∀ x ∈ p.steps settings, ∃ past future s,
        Scanned c.graph fin past x.tree future s x.after ∧
          x.requests = requests c.graph x.tree s := by
  obtain ⟨pending, fin, hg, htrees, -, hmap, hkeeping, ⟨-, hnotes, hintervals⟩, -⟩ :=
    Program.compile_rested h honce hfault
  obtain ⟨m, himport, hgraph, hir, hscan⟩ := Program.compile_cases h hfault
  obtain ⟨s₀, -, hsurvey, -, -⟩ := scan_cases hscan
  refine ⟨pending, fin, hg, hmap.trans htrees.symm, hnotes, hintervals, ?_⟩
  intro x hx
  have hvisit : ∃ v ∈ p.visits settings, Ends c.graph v x := by
    rw [Program.steps, himport] at hx
    rw [Program.visits, himport, hgraph]
    simp only [hsurvey] at hx ⊢
    exact exists_visit_of_mem_traceBlocks hx
  obtain ⟨v, hv, hends⟩ := hvisit
  obtain ⟨_, past, before, -, hbegun⟩ :=
    Program.visits_begun himport (hgraph ▸ hir ▸ honce) (N := False) False.elim v hv
  rw [← hgraph] at hbegun
  obtain ⟨future, hsplit⟩ := hbegun.trees
  rw [← hends.tree_eq] at hsplit
  obtain ⟨pre, post, hpre⟩ := List.append_of_mem hx
  obtain ⟨-, ⟨hcontinues, hfixed⟩, -⟩ := hkeeping.split hpre
  -- A tree is reached once, so the trees of the steps so far are those in front of it.
  have hpast : past ++ before = pre.map Step.tree := by
    rw [hpre, List.map_append, List.map_cons] at hmap
    have hnodup := List.Nodup.of_map _ (htrees ▸ honce)
    rw [hsplit] at hnodup hmap
    exact (eq_of_append_cons_eq hnodup hmap.symm).1
  refine ⟨past ++ before, future, v.before, ⟨hsplit, hbegun.rested, ?_, ?_, hcontinues, ?_⟩, ?_⟩
  · rw [hends.tree_eq]
    exact hbegun.subtrees_reg
  · rw [hends.tree_eq]
    exact hends.scan_eq
  · rw [hpast]
    exact hfixed
  · rw [hends.requests_eq, Visit.requests, hends.tree_eq]

end LinearScan
