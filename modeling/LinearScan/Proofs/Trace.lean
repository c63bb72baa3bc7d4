import LinearScan.Samples
import LinearScan.Proofs.RegisterFile

/-!
# The trace of a scan

The states at which the scan of a tree ends, over a whole run, up to the point at which
the run stops.  Up to any point of the trace the three records of the register file agree
if and only if no request has slipped so far.
-/

namespace LinearScan

open Allocator

/-- The scan of a tree that has come to its end. -/
structure Step where
  tree : Tree
  /-- The intervals for which the tree asked a register, with the states in which it did. -/
  requests : List (Allocator × IntervalId)
  /-- The state at the end of the scan of the tree. -/
  after : Allocator

/-- At some request the register that was filled is not the one that was noted. -/
def Step.Slips (x : Step) : Prop :=
  ∃ q ∈ x.requests, Alloc.Slips x.tree q

instance (x : Step) : Decidable x.Slips :=
  inferInstanceAs (Decidable (∃ q ∈ x.requests, Alloc.Slips x.tree q))

namespace Alloc

/-- The scans of trees that come to their end, in order. -/
def traceTrees (g : Graph) : List Tree → Allocator → List Step
  | [], _ => []
  | t :: ts, s =>
      match scanTree g t s with
      | .ok _ s' => ⟨t, requests g t s, s'⟩ :: traceTrees g ts s'
      | .error _ _ => []

/-- The scans of trees that come to their end in the scan of blocks, in order. -/
def traceBlocks (g : Graph) : List BlockId → Allocator → List Step
  | [], _ => []
  | b :: bs, s =>
      match enter b s with
      | .ok _ s₁ =>
          traceTrees g (g.treesOf b) s₁ ++
            match scanBlock g b s with
            | .ok _ s' => traceBlocks g bs s'
            | .error _ _ => []
      | .error _ _ => []

end Alloc

/-- The scans of trees that come to their end when a program is compiled, in order. -/
def Program.steps (p : Program) (settings : Settings) : List Step :=
  match p.import? with
  | .ok m =>
      match Alloc.survey m.graph m.ir
          (Allocator.create m.notes settings.registers settings.reuse) with
      | .ok _ s => Alloc.traceBlocks m.graph (m.ir.blocks m.graph) s
      | .error _ _ => []
  | .error _ => []

/-! ## Agreement along a trace -/

/-- The records agree at the end of each step, up to the first step that slips, and
disagree there. -/
def Steady (size : Int) : List Step → Prop
  | [] => True
  | x :: xs => (x.after.Consistent size ↔ ¬ x.Slips) ∧ (x.after.Consistent size → Steady size xs)

namespace Steady

variable {size : Int} {xs ys : List Step}

theorem append (hxs : Steady size xs)
    (hys : (∀ x ∈ xs, x.after.Consistent size) → Steady size ys) : Steady size (xs ++ ys) := by
  induction xs with
  | nil => exact hys (by simp)
  | cons x xs ih =>
      refine ⟨hxs.1, ?_⟩
      intro hx
      apply ih (hxs.2 hx)
      intro hall
      apply hys
      intro y hy
      rcases List.mem_cons.mp hy with rfl | hy
      · exact hx
      · exact hall y hy

theorem take_iff (hxs : Steady size xs) (k : Nat) :
    (∀ x ∈ xs.take k, x.after.Consistent size) ↔ ∀ x ∈ xs.take k, ¬ x.Slips := by
  induction xs generalizing k with
  | nil => simp
  | cons x xs ih =>
      cases k with
      | zero => simp
      | succ k =>
          rw [List.take_succ_cons, List.forall_mem_cons, List.forall_mem_cons]
          constructor
          · rintro ⟨hx, hall⟩
            exact ⟨hxs.1.mp hx, (ih (hxs.2 hx) k).mp hall⟩
          · rintro ⟨hx, hall⟩
            have hconsistent := hxs.1.mpr hx
            exact ⟨hconsistent, (ih (hxs.2 hconsistent) k).mpr hall⟩

end Steady

/-! ## Trees -/

namespace Alloc

variable {g : Graph} {pending : List Tree} {b : BlockId} {t : Tree} {s s' : Allocator}
  {before after ts : List Tree} {size : Int}

/-- All that holds in `s`, where the trees `before` of a block have been scanned, whether
or not the records agree. -/
structure Proper (g : Graph) (size : Int) (before : List Tree) (s : Allocator) : Prop where
  scanning : s.Scanning g before
  restoresAtUse : s.RestoresAtUse g before
  rising : s.notes.Rising g
  size_eq : s.registers.length = size.toNat

theorem Proper.consistent_iff (hs : Proper g size before s) :
    s.Consistent size ↔ Filed s.registers s.active s.notes :=
  hs.scanning.orderly.consistent_iff hs.size_eq

section

variable (hg : g.Formed pending) (hb : b ∈ g.blocksFrom 0)
include hg hb

theorem scanTree_proper (htrees : g.treesOf b = before ++ t :: after) (hs : Proper g size before s)
    (h : scanTree g t s = .ok () s') : Proper g size (before ++ [t]) s' := by
  have hext := (scanTree_moves hg.twins_eq h).extends
  exact
    { scanning := scanTree_scanning hg hs.scanning htrees h
      restoresAtUse :=
        (scanTree_restoresAtUse hg hb htrees hs.rising hs.scanning hs.restoresAtUse h).1
      rising := hs.rising.congr hext.index_eq
      size_eq := hext.size_eq.trans hs.size_eq }

/-- One step: the records agree at its end unless a request slipped. -/
theorem scanTree_consistent_iff (htrees : g.treesOf b = before ++ t :: after)
    (hs : Proper g size before s) (hfiled : Filed s.registers s.active s.notes)
    (h : scanTree g t s = .ok () s') : s'.Consistent size ↔ ∀ q ∈ requests g t s, ¬ Slips t q := by
  have hmoves := scanTree_moves hg.twins_eq h
  have hsubtrees := Scanning.subtrees_reg hg hs.scanning htrees
  have hrequests := (scanTree_restoresAtUse hg hb htrees hs.rising hs.scanning hs.restoresAtUse h).2
  rw [(scanTree_proper hg hb htrees hs h).consistent_iff]
  constructor
  · intro hfiled' q hq hslips
    have hkind : t.kind ≠ .stLocal := by
      intro hstore
      rw [hrequests hstore] at hq
      cases hq
    obtain ⟨k, hk⟩ := hmoves.orphans hs.scanning.orderly hsubtrees hkind ⟨q, hq, hslips⟩ hfiled
    exact hk.not_filed hfiled'
  · intro hslips
    exact hmoves.filed hs.scanning.orderly hsubtrees hslips hfiled

section

variable (htrees : g.treesOf b = before ++ ts) (hs : Proper g size before s)
  (hfiled : Filed s.registers s.active s.notes)
include htrees hs hfiled

theorem traceTrees_steady : Steady size (traceTrees g ts s) := by
  induction ts generalizing s before with
  | nil => trivial
  | cons t ts ih =>
      rw [traceTrees]
      cases hscan : scanTree g t s with
      | error fault s' => trivial
      | ok value s' =>
          have hs' := scanTree_proper hg hb htrees hs hscan
          refine ⟨?_, ?_⟩
          · rw [scanTree_consistent_iff hg hb htrees hs hfiled hscan]
            simp [Step.Slips]
          · intro hconsistent
            exact ih (by simp [htrees]) hs' (hs'.consistent_iff.mp hconsistent)

/-- If the records agree at the end of each step, they agree at the end of the block. -/
theorem scanTrees_proper (h : scanTrees g ts s = .ok () s')
    (htrace : ∀ x ∈ traceTrees g ts s, x.after.Consistent size) :
    Proper g size (g.treesOf b) s' ∧ Filed s'.registers s'.active s'.notes := by
  induction ts generalizing s before with
  | nil =>
      obtain ⟨-, rfl⟩ := pure_cases h
      rw [List.append_nil] at htrees
      exact ⟨htrees ▸ hs, hfiled⟩
  | cons t ts ih =>
      obtain ⟨⟨⟩, s₁, hfirst, hrest⟩ := exists_of_bind_apply_eq_ok h
      have hs₁ := scanTree_proper hg hb htrees hs hfirst
      rw [traceTrees, hfirst] at htrace
      have hconsistent := htrace ⟨t, requests g t s, s₁⟩ (by simp)
      exact ih (by simp [htrees]) hs₁ (hs₁.consistent_iff.mp hconsistent) hrest
        fun x hx => htrace x (by simp [hx])

end

end

/-! ## Blocks -/

theorem Seated.filed {cs : List Crossing} (h : Seated cs s s') (hcs : s.Fits cs)
    (hregs : (cs.map Crossing.reg).Nodup) (hfresh : ∀ c ∈ cs, c.interval ∉ s.active)
    (hempty : ∀ c ∈ cs, ∀ k : Nat, c.reg = some (k : Int) → s.registers[k]? = some none)
    (hfiled : Filed s.registers s.active s.notes) :
    Filed s'.registers s'.active s'.notes := by
  induction h with
  | nil s => exact hfiled
  | @cons c cs s s' k hk hrest ih =>
      obtain ⟨r, hr, hnonneg, -⟩ := hcs.reg_range c (by simp)
      obtain ⟨m, rfl⟩ := Int.eq_ofNat_of_zero_le hnonneg
      rw [hr] at hk hrest
      obtain ⟨rfl, -⟩ := resolve_natCast_cases hk
      obtain ⟨hreg, hregs⟩ := List.nodup_cons.mp hregs
      have hext : s.Extends { s with
          registers := s.registers.set k (some c.interval)
          notes := s.notes.place c.interval (some (k : Int))
          active := s.active ++ [c.interval] } :=
        extends_place s c.interval (some (k : Int)) (by simp) _
      have hseated := hfiled.seat (hfresh c (by simp)) (hempty c (by simp) k hr)
      rw [hr] at ih
      obtain ⟨hrest', hfresh'⟩ := hcs.tail hfresh
      refine ih (hrest'.congr hext.toContinues) hregs hfresh' ?_ hseated
      intro d hd l hl
      have hkl : k ≠ l := by
        rintro rfl
        apply hreg
        rw [hr, ← hl]
        exact List.mem_map_of_mem hd
      rw [List.getElem?_set_ne hkl]
      exact hempty d (by simp [hd]) l hl

/-- In `s`, between blocks, the sets that cross from block to block list no register
twice. -/
structure Settled (g : Graph) (size : Int) (s : Allocator) : Prop where
  restoresAtUse : s.RestoresAtUse g []
  rising : s.notes.Rising g
  size_eq : s.registers.length = size.toNat
  exit_regs : ∀ b crossings, (s.notes.block b).exit = some crossings →
    (crossings.members.map Crossing.reg).Nodup

theorem cleared_filed (s : Allocator) :
    Filed (cleared s).registers (cleared s).active (cleared s).notes := by
  intro k i
  simp [cleared, List.getElem?_replicate]

theorem cleared_restoresAtUse (hs : s.Orderly g) (ht : s.RestoresAtUse g before) (b : BlockId) :
    (cleared { s with block := some b }).RestoresAtUse g [] := by
  have hcontinues := cleared_continues s b
  have hcount : (cleared { s with block := some b }).notes.intervalCount =
      s.notes.intervalCount := Notes.intervalCount_evacuate _ _
  have huses : (cleared { s with block := some b }).RestoresAtUse g before := by
    apply ht.congr hs hcontinues hcount
    · intro i hi
      cases hi
    · intro x
      simp [cleared]
  refine ⟨huses.owner_mem, ?_, huses.restore_parent, huses.store_restores⟩
  intro i hi
  cases hi

theorem Seated.restoresAtUse {cs : List Crossing} (h : Seated cs s s')
    (ht : s.RestoresAtUse g before)
    (hslot : ∀ c ∈ cs, ∀ u, (s.interval c.interval).owner ≠ .temp u) :
    s'.RestoresAtUse g before := by
  induction h with
  | nil s => exact ht
  | @cons c cs s s' k hk hrest ih =>
      refine ih (restoresAtUse_push ht (List.Subset.refl _) ?_ _ _) ?_
      · intro u hu
        exact absurd hu (hslot c (by simp) u)
      · intro d hd u hu
        apply hslot d (by simp [hd]) u
        rw [← hu]
        exact (s.notes.owner_place c.interval d.interval c.reg).symm

theorem enter_proper {s₀ : Allocator} {scanned : List BlockId} (hs : HasScanned g s₀ scanned s)
    (hsettled : Settled g size s) (h : enter b s = .ok () s') :
    Proper g size [] s' ∧ Filed s'.registers s'.active s'.notes := by
  have hentered := enter_entered hs.orderly (HasScanned.exits hs) h
  have hscanning : s'.Scanning g [] := ⟨hentered.orderly, by simp⟩
  have hrising := hsettled.rising.congr hentered.continues.index_eq
  have hsize := hentered.continues.size_eq.trans hsettled.size_eq
  have hclear := cleared_restoresAtUse hs.orderly hsettled.restoresAtUse b
  have hempty := cleared_filed { s with block := some b }
  rcases enter_cases h with ⟨hnil, rfl⟩ | ⟨crossings, s₁, hne, hfirst, hseated, rfl⟩
  · exact ⟨⟨hscanning, hclear, hrising, hsize⟩, hempty⟩
  · obtain ⟨p, -, hexit⟩ := exists_exit_of_firstExit hfirst
    have hfits := (HasScanned.exits hs p crossings hexit).congr (cleared_continues s b)
    have horderly := cleared_orderly hs.orderly b
    have huses : s₁.RestoresAtUse g [] := by
      apply hseated.restoresAtUse hclear
      intro c hc u hu
      rw [horderly.owner_slot c.interval (hfits.interval_lt c hc)] at hu
      cases hu
    have hfiled : Filed s₁.registers s₁.active s₁.notes := by
      apply hseated.filed hfits (hsettled.exit_regs p crossings hexit) _ _ hempty
      · intro c _ hactive
        cases hactive
      · intro c hc k hk
        obtain ⟨r, hr, -, hlt⟩ := hfits.reg_range c hc
        have hlt' : k < (cleared { s with block := some b }).registers.length := by
          rw [hk] at hr
          injection hr with hr
          omega
        simpa [cleared, List.getElem?_replicate] using hlt'
    exact ⟨⟨hscanning, ⟨huses.owner_mem, huses.active_mem, huses.restore_parent,
      huses.store_restores⟩, hrising, hsize⟩, hfiled⟩

theorem depart_settled (hs : Proper g size before s)
    (hfiled : Filed s.registers s.active s.notes)
    (hexits : ∀ b crossings, (s.notes.block b).exit = some crossings →
      (crossings.members.map Crossing.reg).Nodup)
    (h : depart b s = .ok () s') : Settled g size s' := by
  have horderly := hs.scanning.orderly
  have hdeparted := depart_departed horderly h
  obtain ⟨kept, s₁, hsifted, rfl⟩ := depart_cases h
  have hkept := hsifted.kept_eq
  have hs₁ := hsifted.orderly horderly
  have hcontinues := hdeparted.continues
  have hfiled₁ := release_filed hsifted horderly hfiled
  have htrees := hsifted.tree_eq
  have hcount := hsifted.count_eq
  constructor
  · have hmem : ∀ i : Nat, i ∈ kept → i ∈ s.active ∧ i < s.slots.length := by
      intro i hi
      rw [hkept, List.mem_filter] at hi
      refine ⟨hi.1, ?_⟩
      by_contra hle
      have htemp := (horderly.isTemp_iff (horderly.active_lt i hi.1)).mpr (Nat.le_of_not_lt hle)
      simp [htemp] at hi
    have huses := hs.restoresAtUse.congr horderly hcontinues hcount
      (fun i hi => Or.inl (hmem i hi).1)
      (fun x => by
        have hx : (s₁.notes.setExit b (crossingsOf s₁.notes kept)).tree x = s₁.notes.tree x := rfl
        rw [hx, htrees])
    refine ⟨huses.owner_mem, ?_, huses.restore_parent, huses.store_restores⟩
    intro i hi u hu
    obtain ⟨hactive, hslot⟩ := hmem i hi
    rw [hcontinues.owner_eq (horderly.active_lt i hactive), horderly.owner_slot i hslot] at hu
    cases hu
  · exact hs.rising.congr hcontinues.index_eq
  · exact hcontinues.size_eq.trans hs.size_eq
  · intro c crossings hc
    by_cases hbc : b = c
    · have hsize : s₁.registers.length = size.toNat := hcontinues.size_eq.trans hs.size_eq
      have hconsistent := (hs₁.consistent_iff hsize).mpr hfiled₁
      rw [Notes.block_setExit, if_pos hbc] at hc
      injection hc with hc
      rw [← hc, crossingsOf, List.map_map, List.Nodup, List.pairwise_map]
      exact hconsistent.active_distinct
    · rw [hdeparted.exit_of_ne c hbc] at hc
      exact hexits c crossings hc

/-- One block: the records agree at each step until one slips, and if none does the sets
that cross to other blocks list no register twice. -/
theorem scanBlock_settled (hg : g.Formed pending) (hb : b ∈ g.blocksFrom 0) {s₀ s₁ : Allocator}
    {scanned : List BlockId} (hs : HasScanned g s₀ scanned s) (hsettled : Settled g size s)
    (henter : enter b s = .ok () s₁) (h : scanBlock g b s = .ok () s')
    (htrace : ∀ x ∈ traceTrees g (g.treesOf b) s₁, x.after.Consistent size) :
    Settled g size s' := by
  obtain ⟨s₁', s₂, henter', htrees, hdepart⟩ := scanBlock_cases h
  rw [henter] at henter'
  injection henter' with _ heq
  subst heq
  have hentered := enter_entered hs.orderly (HasScanned.exits hs) henter
  obtain ⟨hs₁, hfiled₁⟩ := enter_proper hs hsettled henter
  have hstart : g.treesOf b = [] ++ g.treesOf b := rfl
  obtain ⟨hs₂, hfiled₂⟩ := scanTrees_proper hg hb hstart hs₁ hfiled₁ htrees htrace
  apply depart_settled hs₂ hfiled₂ _ hdepart
  intro c crossings hc
  have hext := (scanTrees_scanning hg hs₁.scanning hstart htrees).2
  rw [hext.block_notes_eq, hentered.exit_eq] at hc
  exact hsettled.exit_regs c crossings hc

theorem traceBlocks_steady (hg : g.Formed pending) {s₀ : Allocator} {scanned bs : List BlockId}
    (hbs : ∀ b ∈ bs, b ∈ g.blocksFrom 0) (hnodup : (scanned ++ bs).Nodup)
    (hs : HasScanned g s₀ scanned s) (hsettled : Settled g size s) :
    Steady size (traceBlocks g bs s) := by
  induction bs generalizing s scanned with
  | nil => trivial
  | cons b bs ih =>
      have hb := hbs b (by simp)
      rw [traceBlocks]
      cases henter : enter b s with
      | error fault s₁ => trivial
      | ok value s₁ =>
          obtain ⟨hs₁, hfiled₁⟩ := enter_proper hs hsettled henter
          apply (traceTrees_steady hg hb rfl hs₁ hfiled₁).append
          intro htrace
          cases hscan : scanBlock g b s with
          | error fault s' => trivial
          | ok value s' =>
              have hfresh : b ∉ scanned := by
                intro hmem
                exact (List.nodup_append.mp hnodup).2.2 b hmem b (by simp) rfl
              have hassoc : scanned ++ b :: bs = (scanned ++ [b]) ++ bs := by simp
              rw [hassoc] at hnodup
              exact ih (fun c hc => hbs c (by simp [hc])) hnodup
                (scanBlock_hasScanned hg hs hfresh hscan)
                (scanBlock_settled hg hb hs hsettled henter hscan htrace)

/-- Before the first block is scanned. -/
theorem survey_settled {ir : Ir} {n : Notes} {size : Int} {reuse : Bool} (hn : n.Fresh)
    (hrising : n.Rising g)
    (h : survey g ir (Allocator.create n size reuse) = .ok () s) : Settled g size s := by
  obtain ⟨hhas, hlisted⟩ := survey_hasScanned hn h
  have htree : ∀ x, s.notes.tree x = n.tree x := hlisted.tree_eq
  have hslot := hlisted.owner_ne_temp
  constructor
  · refine ⟨fun i u hi hu => absurd hu (hslot i u hi), ?_, ?_, ?_⟩
    · intro i hi u hu
      exact absurd hu (hslot i u (hhas.orderly.active_lt i hi))
    · intro x r hr
      rw [htree, hn.restores_eq] at hr
      cases hr
    · intro b x _ _
      rw [htree, hn.restores_eq]
  · apply hrising.congr
    intro x
    rw [Notes.index, htree]
    rfl
  · rw [hlisted.registers_eq]
    simp [Allocator.create]
  · intro b crossings hb
    rw [Notes.block, hlisted.blocks_eq] at hb
    have hexit := hn.exit_eq b
    rw [Notes.block] at hexit
    rw [Allocator.create, hexit] at hb
    cases hb

end Alloc

theorem Program.import?_rising {p : Program} {m : Imported} (h : p.import? = .ok m) :
    m.notes.Rising m.graph := by
  obtain ⟨s, n, -, hs, hgraph, -, -, hnotes, -⟩ := Program.import?_cases h
  have hchained := hs.chained
  rw [hs.first_eq] at hchained
  rw [hnotes, hgraph]
  exact .number ⟨hs.linked, hchained, hs.planted, hs.twins_eq⟩ n

theorem Program.steps_steady (p : Program) (settings : Settings) :
    Steady settings.registers (p.steps settings) := by
  rw [Program.steps]
  cases himport : p.import? with
  | error fault => trivial
  | ok m =>
      cases hsurvey : Alloc.survey m.graph m.ir
          (Allocator.create m.notes settings.registers settings.reuse) with
      | error fault s => simp only [hsurvey]; trivial
      | ok value s =>
          obtain ⟨⟨pending, hg⟩, hfresh, hfirst⟩ := Program.import?_formed himport
          have hblocks : m.ir.blocks m.graph = m.graph.blocksFrom 0 := by
            rw [Ir.blocks, hfirst]
          simp only [hsurvey, hblocks]
          apply Alloc.traceBlocks_steady hg (fun b hb => hb) _
            (Alloc.survey_hasScanned hfresh hsurvey).1
            (Alloc.survey_settled hfresh (Program.import?_rising himport) hsurvey)
          exact hg.chained.nodup

/-- Up to any step of the run, the file of registers, the active list and the intervals
agree at the end of each step if and only if no request slipped: each time a register was
given, the register that was noted is the one that was filled. -/
theorem Program.steps_consistent_iff (p : Program) (settings : Settings) (k : Nat) :
    (∀ x ∈ (p.steps settings).take k, x.after.Consistent settings.registers) ↔
      ∀ x ∈ (p.steps settings).take k, ¬ x.Slips :=
  (p.steps_steady settings).take_iff k

/-- A program in which a variable leaves its register between the read of its value and the
use of the value, since it is written before it is read again. -/
def Samples.rewritten : Program where
  locals := 1
  instrs :=
    [⟨.push, [.num 5]⟩, ⟨.ldLocal, [.num 0]⟩, ⟨.binary .add, []⟩, ⟨.pop, []⟩,
      ⟨.ldLocal, [.num 0]⟩, ⟨.push, [.num 1]⟩, ⟨.binary .add, []⟩, ⟨.stLocal, [.num 0]⟩,
      ⟨.ldLocal, [.num 0]⟩, ⟨.ret, []⟩]

/-- The records do not always agree: register `0` is noted for the constant that is added to
the variable, and register `1` is filled. -/
theorem Program.steps_inconsistent :
    ¬ ∀ x ∈ Samples.rewritten.steps {}, x.after.Consistent 4 := by
  intro h
  obtain ⟨x, hx, hoccupied, hlive⟩ : ∃ x ∈ Samples.rewritten.steps {},
      x.after.registers[1]? = some (some 3) ∧ (x.after.interval 3).liveIn = some 0 := by
    decide +kernel
  have hlive' := ((h x hx).occupant_active 1 3 hoccupied).2
  rw [hlive] at hlive'
  cases hlive'

end LinearScan
