import LinearScan.Proofs.Backing
import LinearScan.Proofs.Safekeeping

/-!
# Every register is found

When a temporary is spilled, a restore without a register is noted at the tree that takes the
value; the register is found when that tree is scanned.  When a tree has been scanned for the
last time, everything that is noted at it names a register of the file.  Later steps are taken
at trees with larger places, and they leave it alone.  Blocks and edges get their registers
from active intervals.
-/

namespace LinearScan

open Allocator

/-- The register is one of `size` registers. -/
def IsRegister (size : Int) (reg : Option Int) : Prop :=
  ∃ r, reg = some r ∧ 0 ≤ r ∧ r < size

/-! ## Trees that are reached several times -/

/-- A tree that is not reached any more has a smaller place than one that is. -/
def Notes.Numbered (n : Notes) (g : Graph) : Prop :=
  ∀ past t future, g.treesFrom 0 = past ++ t :: future →
    ∀ x ∈ past, (∀ z ∈ t :: future, z.id ≠ x.id) → n.index x < n.index t

theorem Notes.Numbered.congr {n n' : Notes} {g : Graph} (hn : n.Numbered g)
    (h : ∀ u, n'.index u = n.index u) : n'.Numbered g := by
  intro past t future htrees x hx hlast
  rw [h, h]
  exact hn past t future htrees x hx hlast

/-- Trees that are numbered one after the other keep the last number they get. -/
theorem Notes.numbered_number (n : Notes) (g : Graph) :
    (n.number 0 (g.treesFrom 0)).Numbered g := by
  intro past t future htrees x hx hlast
  rw [htrees]
  refine Notes.index_number_lt ⟨x, by simp [hx], rfl⟩ ?_
  intro before v after hsplit hid
  rcases List.append_eq_append_iff.mp hsplit with ⟨mid, -, hmid⟩ | ⟨mid, -, hmid⟩
  · -- The occurrence of `x` would stand in `t :: future`.
    exact absurd hid (hlast v (by simp [hmid]))
  · cases mid with
    | nil =>
        injection hmid with hv hafter
        exact absurd hid (hlast v (by simp [hv]))
    | cons w mid =>
        injection hmid with hv hafter
        exact ⟨t, by simp [hafter], rfl⟩

/-- What is noted at the tree `t`, apart from spills, names registers of the file, and a store
shows last the register of the value that it stores. -/
structure Notes.Assigned (n : Notes) (g : Graph) (size : Int) (t : Tree) : Prop where
  reg : ∀ p, g.parent t = some p → IsRegister size (some (n.reg t))
  restores : ∀ r ∈ (n.tree t).restores, IsRegister size r.reg
  stored : t.kind = .stLocal →
    ∃ v, t.subtrees = [v] ∧ (n.tree t).stored.getLast? = some (n.reg v)

theorem Notes.Assigned.congr {n n' : Notes} {g : Graph} {size : Int} {t : Tree}
    (h : n.Assigned g size t) (htree : n'.tree t = n.tree t)
    (hsubtrees : ∀ v ∈ t.subtrees, n'.tree v = n.tree v) : n'.Assigned g size t where
  reg p hp := by
    rw [Notes.reg, htree]
    exact h.reg p hp
  restores := htree ▸ h.restores
  stored hkind := by
    obtain ⟨v, hv, hlast⟩ := h.stored hkind
    refine ⟨v, hv, ?_⟩
    rw [htree, hlast, Notes.reg, Notes.reg, hsubtrees v (by simp [hv])]

namespace Alloc

variable {g : Graph} {pending past future before after ts rest : List Tree} {t : Tree}
  {b : BlockId} {s s₁ s' : Allocator} {i : Nat} {done rs : List Restore}

theorem Orderly.isRegister (hs : s.Orderly g) {reg : Option Int}
    (hreg : ∃ r, (s.interval i).liveIn = some r) (heq : reg = (s.interval i).liveIn) :
    IsRegister s.registers.length reg := by
  obtain ⟨r, hr⟩ := hreg
  exact ⟨r, heq.trans hr, hs.live_range i r hr⟩

/-! ## Spills -/

/-- Every spill names a register of the file. -/
def SpillsNamed (s : Allocator) : Prop :=
  ∀ u, ∀ sp ∈ (s.notes.tree u).spills, IsRegister s.registers.length sp.reg

namespace SpillsNamed

theorem congr (h : SpillsNamed s) (hsize : s'.registers.length = s.registers.length)
    (hspills : ∀ u, (s'.notes.tree u).spills = (s.notes.tree u).spills) : SpillsNamed s' := by
  intro u sp hsp
  rw [hspills] at hsp
  rw [hsize]
  exact h u sp hsp

section

variable (h : SpillsNamed s) (hs : s.Orderly g)
include h hs

theorem spill {reg : Int} (hspill : spill g t i s = .ok reg s') : SpillsNamed s' := by
  have hsize := (extends_spill hspill).size_eq
  obtain ⟨use, k, rest, hlive, -, -, -, rfl⟩ := spill_cases hspill
  intro u sp hsp
  rw [hsize]
  simp only [spills_spillNotes] at hsp
  split at hsp
  · rcases List.mem_append.mp hsp with hsp | hsp
    · exact h u sp hsp
    · obtain rfl := List.mem_singleton.mp hsp
      exact ⟨reg, rfl, hs.live_range i reg hlive⟩
  · exact h u sp hsp

theorem activated (hactivated : Activated g t i s s') : SpillsNamed s' := by
  have hsize := hactivated.extends.size_eq
  cases hactivated with
  | already => exact h
  | free number filled n hlive hchoose hreload hfilled =>
      refine h.congr hsize fun u => ?_
      rw [Notes.tree_place]
      rcases hreload.notes_cases with rfl | ⟨-, rfl⟩
      · rfl
      · rw [Notes.addRestore, Notes.tree_modifyTree]
        split <;> rfl
  | evicted use v reg k s₁ hlive hchoose huse hvictim hspill hk =>
      exact (h.spill hs hspill).congr (List.length_set) fun _ => rfl

theorem move {phase : Phase} (hmove : Move g t phase s s') : SpillsNamed s' := by
  have hsize := hmove.extends.size_eq
  cases hmove with
  | turn _ tree reuse => exact h
  | release hsifted =>
      refine h.congr hsize fun u => ?_
      rw [hsifted.tree_eq]
  | carrySpill sp reg k rest hsp hlive hrest hk => exact h.congr hsize fun _ => rfl
  | annotate f hindex hspills hrestores hreg =>
      refine h.congr hsize fun u => ?_
      rw [Notes.tree_modifyTree]
      split
      · next hid =>
          have htree : s.notes.tree u = s.notes.tree t := by
            rw [Notes.tree, Notes.tree, hid]
          rw [htree, hspills]
      · rfl
  | create p hparent => exact h
  | settle j value rest hkind hslot hvalue hlive hsettle =>
      obtain ⟨s₁, s₂, k, hclear, hunseated, hk, rfl⟩ := settle_cases hsettle
      have h₁ : SpillsNamed s₁ := by
        obtain ⟨m, -, ⟨-, rfl⟩ | ⟨j, -, ⟨-, rest, -, rfl⟩ | ⟨-, old, hspill⟩⟩⟩ :=
          clearFor_cases hclear
        · exact h
        · exact h
        · exact h.spill hs hspill
      cases hunseated with
      | moved log hlive' hk' => exact h₁.congr (by simp) fun _ => rfl
      | entered hlive' => exact h₁.congr (by simp) fun _ => rfl

theorem moves {phase : Phase} {requests : List (Allocator × IntervalId)}
    (hsubtrees : ∀ u ∈ t.subtrees, 0 ≤ s.notes.reg u) (hmoves : Moves g t phase requests s s') :
    SpillsNamed s' := by
  induction hmoves with
  | nil s => exact h
  | move hmove _ ih =>
      exact ih (h.move hs hmove) (hmove.orderly hs hsubtrees)
        fun u hu => hmove.reg_nonneg hs (hsubtrees u hu)
  | activate hreq hactivated _ ih =>
      exact ih (h.activated hs hactivated) (hactivated.orderly hs (hreq.lt hs))
        fun u hu => (hactivated.reg_eq u).symm ▸ hsubtrees u hu

end

end SpillsNamed

/-! ## Restores at the tree that is scanned -/

/-- Each restore that is carried out is noted with the register that was found for it. -/
theorem carryRestores_isRegister (hs : s.Orderly g)
    (hsubtrees : ∀ u ∈ t.subtrees, 0 ≤ s.notes.reg u)
    (hrestores : (s.notes.tree t).restores = done ++ rs)
    (hdone : ∀ r ∈ done, IsRegister s.registers.length r.reg)
    (h : carryRestores g t done.length rs s = .ok () s') :
    ∀ r ∈ (s'.notes.tree t).restores, IsRegister s'.registers.length r.reg := by
  induction rs generalizing s done with
  | nil =>
      obtain ⟨-, rfl⟩ := pure_cases h
      rw [hrestores, List.append_nil]
      exact hdone
  | cons r rs ih =>
      obtain ⟨⟨⟩, s₀, hfirst, hlast⟩ := exists_of_bind_apply_eq_ok h
      obtain ⟨-, s₁, hactivated, rfl⟩ := carryRestore_cases hfirst
      have hmem : r ∈ (s.notes.tree t).restores := by simp [hrestores]
      have hi := hs.restore_lt t r hmem
      have hs₁ := hactivated.orderly hs hi
      have hsubtrees₁ : ∀ u ∈ t.subtrees, 0 ≤ s₁.notes.reg u := fun u hu =>
        (hactivated.reg_eq u).symm ▸ hsubtrees u hu
      have hkept := hactivated.restores_eq hs hi (Or.inr ⟨r, hmem, rfl⟩)
      have hmove : Move g t .preparing s₁ { s₁ with
          notes := noteRestored s₁.notes t done.length (s₁.interval r.interval).liveIn } :=
        noteRestored_move s₁ done.length _
      have hlength : done.length + 1 =
          (done ++ [{ r with reg := (s₁.interval r.interval).liveIn }]).length := by simp
      rw [hlength] at hlast
      refine ih (hmove.orderly hs₁ hsubtrees₁)
        (fun u hu => hmove.reg_nonneg hs₁ (hsubtrees₁ u hu)) ?_ ?_ hlast
      · rw [noteRestored, Notes.tree_modifyTree, if_pos rfl]
        dsimp only
        rw [hkept, hrestores, modify_append_cons]
        simp
      · intro q hq
        rcases List.mem_append.mp hq with hq | hq
        · rw [hactivated.extends.size_eq]
          exact hdone q hq
        · obtain rfl := List.mem_singleton.mp hq
          exact Orderly.isRegister hs₁ hactivated.exists_liveIn rfl

/-- A restore that is noted when `i` comes into a register names that register. -/
theorem Activated.isRegister_restores (h : Activated g t i s s')
    (hrestores : ∀ r ∈ (s.notes.tree t).restores, IsRegister s.registers.length r.reg) :
    ∀ r ∈ (s'.notes.tree t).restores, IsRegister s'.registers.length r.reg := by
  rw [h.extends.size_eq]
  intro r hr
  cases h with
  | already => exact hrestores r hr
  | free number filled n hlive hchoose hreload hfilled =>
      rw [Notes.tree_place] at hr
      rcases hreload.tree_cases.2 with heq | heq
      · exact hrestores r (heq ▸ hr)
      · rw [heq] at hr
        rcases List.mem_append.mp hr with hr | hr
        · exact hrestores r hr
        · obtain rfl := List.mem_singleton.mp hr
          have hlt := lt_of_mem_freeRegisters (mem_of_choose hchoose).1
          exact ⟨number, rfl, by omega, by omega⟩
  | evicted use v reg k s₁ hlive hchoose huse hvictim hspill hk =>
      rw [Notes.tree_place, restores_of_victim huse hvictim hspill] at hr
      exact hrestores r hr

/-- When a tree has got its register, the restores at the tree name registers if they did so
before. -/
theorem place_isRegister (hg : g.twins = {}) (hs : s.Orderly g)
    (hrestores : ∀ r ∈ (s.notes.tree t).restores, IsRegister s.registers.length r.reg)
    (h : place g t s = .ok () s') :
    ∀ r ∈ (s'.notes.tree t).restores, IsRegister s'.registers.length r.reg := by
  rcases place_cases h with ⟨-, hload⟩ | ⟨-, hstore⟩ | ⟨-, -, ⟨p, -, htemp⟩ | ⟨-, rfl⟩⟩
  · obtain ⟨i, s₁, -, hactivated, rfl⟩ := scanLoad_cases hload
    intro r hr
    rw [restores_withReg] at hr
    exact hactivated.isRegister_restores hrestores r hr
  · rw [scanStore_restores hg hs hstore, (place_moves hg h).extends.size_eq]
    exact hrestores
  · obtain ⟨s₁, hactivated, rfl⟩ := scanTemp_cases htemp
    intro r hr
    rw [restores_withReg] at hr
    exact hactivated.isRegister_restores hrestores r hr
  · exact hrestores

/-- A store shows last the register of its value. -/
theorem place_stored (hg : g.twins = {}) (hkind : t.kind = .stLocal) {v : Tree}
    (hv : t.subtrees = [v]) (hid : t.id ≠ v.id) (h : place g t s = .ok () s') :
    (s'.notes.tree t).stored.getLast? = some (s'.notes.reg v) := by
  obtain ⟨-, hstore⟩ : t.kind = .stLocal ∧ scanStore g t s = .ok () s' := by
    rcases place_cases h with ⟨hload, -⟩ | hstore | ⟨-, hne, -⟩
    · rw [hkind] at hload
      cases hload
    · exact hstore
    · exact absurd hkind hne
  obtain ⟨i, value, rest, s₁, -, hvalue, hsettle, rfl⟩ := scanStore_cases hstore
  rw [hv] at hvalue
  injection hvalue with hvalue _
  subst hvalue
  have hreg : s₁.notes.reg v = s.notes.reg v := by
    split at hsettle
    · rw [hsettle]
    · exact reg_settle hsettle v
  simp only [Graph.sharers_of_twins_eq_empty hg, List.foldl_cons, List.foldl_nil,
    Notes.addStored, Notes.reg, Notes.tree_modifyTree, if_true, if_neg hid,
    List.getLast?_append, List.getLast?_singleton, Option.some_or]
  exact congrArg some hreg.symm

/-! ## The scan of a tree -/

/-- When a tree has been scanned, what is noted at it names registers. -/
theorem scanTree_assigned (hg : g.Formed pending) (hs : s.Scanning g before)
    (htrees : g.treesOf b = before ++ t :: after) (h : scanTree g t s = .ok () s') :
    s'.notes.Assigned g s'.registers.length t := by
  have hmem : t ∈ g.treesOf b := by simp [htrees]
  have hsubtrees := Scanning.subtrees_reg hg hs htrees
  obtain ⟨s₁, hprepare, hplace⟩ := scanTree_cases h
  have hs₁ := ((prepare_moves hprepare).orderly (hs.orderly.turn (some t) s.reuse) hsubtrees).1
  refine ⟨?_, ?_, ?_⟩
  · intro p hparent
    exact ⟨_, rfl, scanTree_reg hs.orderly hsubtrees h (hg.isValue_of_parent hmem hparent) hparent⟩
  · refine place_isRegister hg.twins_eq hs₁ ?_ hplace
    obtain ⟨s₂, s₃, s₄, hrelease, hspills, hrestores, hlast⟩ := prepare_cases hprepare
    have hmoves : Moves g t .preparing [] { s with tree := some t, reuse := false } s₃ :=
      .append (.single (release_move hrelease)) (carrySpills_moves hspills fun _ => id)
    obtain ⟨hs₃, hregs⟩ := hmoves.orderly (hs.orderly.turn (some t) false) hsubtrees
    have hnone : (s₃.notes.tree t).restores = [] ++ (s₃.notes.tree t).restores := rfl
    have hnamed : ∀ r ∈ (s₄.notes.tree t).restores, IsRegister s₄.registers.length r.reg :=
      carryRestores_isRegister hs₃ (fun u hu => hregs u (hsubtrees u hu)) hnone (by simp)
        hrestores
    split at hlast
    · have hmove : Move g t .preparing _ s₁ := release_move hlast
      obtain ⟨kept, s₅, hsifted, rfl⟩ := release_cases hlast
      obtain ⟨registers, hlength, rfl⟩ := hsifted.state_eq
      intro r hr
      rw [Notes.tree_evacuate] at hr
      rw [hmove.extends.size_eq]
      exact hnamed r hr
    · rw [hlast]
      exact hnamed
  · intro hkind
    have hlength := hg.planted.arity_eq t (hg.mem_allTrees hmem)
    rw [hkind] at hlength
    obtain ⟨v, hv⟩ := List.length_eq_one_iff.mp hlength
    refine ⟨v, hv, place_stored hg.twins_eq hkind hv ?_ hplace⟩
    intro hid
    have hmem' : v ∈ before := hg.subtree_mem_before htrees (by simp [hv])
    have hnodup := hg.treesOf_ids_nodup b
    rw [htrees, List.map_append, List.map_cons] at hnodup
    exact (List.nodup_append.mp hnodup).2.2 v.id (List.mem_map_of_mem hmem') t.id (by simp) hid.symm

/-- The trees `past` have been scanned and the trees `future` are still to come: what is noted
at trees that are not reached any more names registers. -/
structure Fulfilled (g : Graph) (past future : List Tree) (s : Allocator) : Prop where
  rising : s.notes.Rising g
  numbered : s.notes.Numbered g
  spills : SpillsNamed s
  assigned : ∀ x ∈ past, (∀ z ∈ future, z.id ≠ x.id) →
    s.notes.Assigned g s.registers.length x

theorem Fulfilled.congr (h : Fulfilled g past future s) (hext : s.Continues s')
    (htree : ∀ x, s'.notes.tree x = s.notes.tree x) : Fulfilled g past future s' where
  rising := h.rising.congr hext.index_eq
  numbered := h.numbered.congr hext.index_eq
  spills := h.spills.congr hext.size_eq fun u => by rw [htree]
  assigned x hx hlast := by
    rw [hext.size_eq]
    exact (h.assigned x hx hlast).congr (htree x) fun v _ => htree v

/-- The subtrees of a tree that is reached have smaller places. -/
theorem Fulfilled.index_subtree (h : Fulfilled g past future s) (hg : g.Formed pending) {x v : Tree}
    (hx : x ∈ g.treesFrom 0) (hv : v ∈ x.subtrees) : s.notes.index v < s.notes.index x := by
  obtain ⟨c, hc, hxc⟩ := List.mem_flatMap.mp hx
  obtain ⟨before, after, hsplit⟩ := List.append_of_mem hxc
  exact h.rising.index_lt_of_mem_before hc hsplit (hg.subtree_mem_before hsplit hv)

theorem scanTree_fulfilled (hg : g.Formed pending) (hall : g.treesFrom 0 = past ++ t :: future)
    (hs : s.Scanning g before) (htrees : g.treesOf b = before ++ t :: after)
    (hfulfilled : Fulfilled g past (t :: future) s) (h : scanTree g t s = .ok () s') :
    Fulfilled g (past ++ [t]) future s' := by
  have hsubtrees := Scanning.subtrees_reg hg hs htrees
  have hmoves := scanTree_moves hg.twins_eq h
  have hext := hmoves.extends
  have hleaves := hmoves.leaves hs.orderly hsubtrees
  refine ⟨hfulfilled.rising.congr hext.index_eq, hfulfilled.numbered.congr hext.index_eq,
    hfulfilled.spills.moves hs.orderly hsubtrees hmoves, ?_⟩
  intro x hx hlast
  have hxall : x ∈ g.treesFrom 0 := by
    rw [hall]
    rcases List.mem_append.mp hx with hx | hx
    · exact List.mem_append_left _ hx
    · simp [List.mem_singleton.mp hx]
  by_cases hid : t.id = x.id
  · obtain ⟨c, -, hxc⟩ := List.mem_flatMap.mp hxall
    obtain rfl := hg.planted.eq_of_id_eq (hg.mem_allTrees (b := b) (by simp [htrees]))
      (hg.mem_allTrees hxc) hid
    exact scanTree_assigned hg hs htrees h
  · -- A tree that was reached for the last time before `t` keeps what is noted at it.
    have hpast : x ∈ past := by
      rcases List.mem_append.mp hx with hx | hx
      · exact hx
      · exact absurd (congrArg Tree.id (List.mem_singleton.mp hx)).symm hid
    have hdone : ∀ z ∈ t :: future, z.id ≠ x.id := by
      intro z hz
      rcases List.mem_cons.mp hz with rfl | hz
      · exact hid
      · exact hlast z hz
    have hlt := hfulfilled.numbered past t future hall x hpast hdone
    rw [hext.size_eq]
    refine (hfulfilled.assigned x hpast hdone).congr (hleaves.behind x hlt) fun v hv => ?_
    exact hleaves.behind v (Nat.lt_trans (hfulfilled.index_subtree hg hxall hv) hlt)

theorem scanTrees_fulfilled (hg : g.Formed pending)
    (hblock : g.treesFrom 0 = past ++ (g.treesOf b ++ rest)) (hs : s.Scanning g before)
    (htrees : g.treesOf b = before ++ ts) (hfulfilled : Fulfilled g (past ++ before) (ts ++ rest) s)
    (h : scanTrees g ts s = .ok () s') : Fulfilled g (past ++ g.treesOf b) rest s' := by
  induction ts generalizing s before with
  | nil =>
      obtain ⟨-, rfl⟩ := pure_cases h
      rw [List.append_nil] at htrees
      rwa [htrees]
  | cons t ts ih =>
      obtain ⟨⟨⟩, s₁, hfirst, hlast⟩ := exists_of_bind_apply_eq_ok h
      have hall := treesFrom_of_treesOf hblock htrees
      have hfulfilled₁ := scanTree_fulfilled hg hall hs htrees hfulfilled hfirst
      rw [List.append_assoc] at hfulfilled₁
      exact ih (scanTree_scanning hg hs htrees hfirst) (by simp [htrees]) hfulfilled₁ hlast

/-! ## Blocks and edges -/

theorem scanBlocks_fulfilled {s₀ : Allocator} {scanned bs : List BlockId} (hg : g.Formed pending)
    (hsplit : g.blocksFrom 0 = scanned ++ bs) (hs : HasScanned g s₀ scanned s)
    (hfulfilled : Fulfilled g (scanned.flatMap g.treesOf) (bs.flatMap g.treesOf) s)
    (h : scanBlocks g bs s = .ok () s') : Fulfilled g (g.treesFrom 0) [] s' := by
  induction bs generalizing s scanned with
  | nil =>
      obtain ⟨-, rfl⟩ := pure_cases h
      rw [List.append_nil] at hsplit
      rw [Graph.treesFrom, hsplit]
      exact hfulfilled
  | cons b bs ih =>
      obtain ⟨⟨⟩, s₁, hfirst, hlast⟩ := exists_of_bind_apply_eq_ok h
      have hb : b ∉ scanned := hg.not_mem_of_blocksFrom_eq hsplit
      have hblock := treesFrom_split hsplit
      have hsplit' : g.blocksFrom 0 = (scanned ++ [b]) ++ bs := by simp [hsplit]
      refine ih hsplit' (scanBlock_hasScanned hg hs hb hfirst) ?_ hlast
      obtain ⟨s₂, s₃, henter, htrees, hdepart⟩ := scanBlock_cases hfirst
      have hentered := enter_entered hs.orderly (HasScanned.exits hs) henter
      have hscan₂ : s₂.Scanning g [] := ⟨hentered.orderly, by simp⟩
      have hfulfilled₂ := hfulfilled.congr hentered.continues (enter_notes henter).2
      have hfulfilled₃ := scanTrees_fulfilled hg hblock hscan₂ rfl
        (by rwa [List.append_nil]) htrees
      obtain ⟨hscan₃, -⟩ := scanTrees_scanning hg hscan₂ (b := b) rfl htrees
      have hdeparted := depart_departed hscan₃.orderly hdepart
      rw [List.flatMap_append, List.flatMap_singleton]
      exact hfulfilled₃.congr hdeparted.continues (depart_notes hdepart).2

theorem survey_fulfilled {ir : Ir} {n : Notes} {size : Int} {reuse : Bool} (hn : n.Fresh)
    (hrising : n.Rising g) (hnumbered : n.Numbered g)
    (h : survey g ir (Allocator.create n size reuse) = .ok () s) :
    Fulfilled g [] (g.treesFrom 0) s := by
  have htree : ∀ x, s.notes.tree x = n.tree x := (survey_hasScanned hn h).2.tree_eq
  have hindex : ∀ x, s.notes.index x = n.index x := fun x => by
    rw [Notes.index, htree]
    rfl
  refine ⟨hrising.congr hindex, hnumbered.congr hindex, ?_, by simp⟩
  intro u sp hsp
  rw [htree, hn.spills_eq] at hsp
  cases hsp

end Alloc

open Alloc

theorem Program.import?_numbered {p : Program} {m : Imported} (h : p.import? = .ok m) :
    m.notes.Rising m.graph ∧ m.notes.Numbered m.graph := by
  obtain ⟨s, n, -, -, hgraph, -, -, hnotes, -⟩ := Program.import?_cases h
  refine ⟨Program.import?_rising h, ?_⟩
  rw [hnotes, ← hgraph]
  exact n.numbered_number m.graph

/-- How a scan that returned stood before the edges were resolved. -/
theorem Program.scan_fulfilled {p : Program} {m : Imported} (himport : p.import? = .ok m)
    {size : Int} {reuse : Bool} {s : Allocator}
    (hscan : scan m.graph m.ir (Allocator.create m.notes size reuse) = .ok () s) :
    ∃ s₁ fin, HasScanned m.graph s₁ (m.graph.blocksFrom 0) fin ∧
      Fulfilled m.graph (m.graph.treesFrom 0) [] fin ∧
      (∀ reg, IsRegister fin.registers.length reg → IsRegister size reg) ∧
      (∀ e, fin.notes.edge e = {}) ∧
      resolveEdges m.graph (m.graph.blocksFrom 0) fin = .ok () s := by
  obtain ⟨⟨pending, hg⟩, hfresh, hfirst⟩ := Program.import?_formed himport
  obtain ⟨hrising, hnumbered⟩ := Program.import?_numbered himport
  obtain ⟨s₁, fin, hsurvey, hblocks, hedges⟩ := scan_cases hscan
  obtain ⟨hhas, hlisted⟩ := survey_hasScanned hfresh hsurvey
  have hchain : m.ir.blocks m.graph = m.graph.blocksFrom 0 := by
    rw [Ir.blocks, hfirst]
  rw [hchain] at hblocks hedges
  have hended := scanBlocks_hasScanned hg hhas (by simpa using hg.chained.nodup) hblocks
  have hdone := scanBlocks_fulfilled hg rfl hhas
    (survey_fulfilled hfresh hrising hnumbered hsurvey) hblocks
  have hsize : (fin.registers.length : Int) = size.toNat := by
    rw [hended.continues.size_eq, hlisted.registers_eq]
    simp [Allocator.create]
  refine ⟨s₁, fin, by simpa using hended, hdone, ?_, ?_, hedges⟩
  · rintro reg ⟨r, hr, hnonneg, hlt⟩
    exact ⟨r, hr, hnonneg, by omega⟩
  · intro e
    rw [Notes.edge, hended.continues.edges_eq, hlisted.edges_eq]
    exact hfresh.edge_eq e

/-- Every tree that a scan has reached has its registers. -/
theorem Program.scan_assigned {p : Program} {m : Imported} (himport : p.import? = .ok m)
    {size : Int} {reuse : Bool} {s : Allocator}
    (hscan : scan m.graph m.ir (Allocator.create m.notes size reuse) = .ok () s) {t : Tree}
    (ht : t ∈ m.ir.trees m.graph) : s.notes.Assigned m.graph size t := by
  obtain ⟨s₁, fin, -, hdone, hregister, -, hedges⟩ := Program.scan_fulfilled himport hscan
  have htree := (resolveEdges_resolved hedges).notes_eq.2
  rw [Ir.trees, (Program.import?_formed himport).2.2] at ht
  have hassigned := (hdone.assigned t ht (by simp)).congr (htree t) fun v _ => htree v
  exact ⟨fun q hq => hregister _ (hassigned.reg q hq),
    fun r hr => hregister _ (hassigned.restores r hr), hassigned.stored⟩

/-- No two stores of a program hold the same list of operands. -/
def Program.SeparateLists (p : Program) (lists : Nat → Nat) : Prop :=
  ∀ i ∈ storeOffsets 0 p.instrs, ∀ j ∈ storeOffsets 0 p.instrs, lists i = lists j → i = j

/-- A program whose stores have their operands for themselves is read as `import?` reads it. -/
theorem Program.SeparateLists.importInto_eq {p : Program} {lists : Nat → Nat}
    (h : p.SeparateLists lists) : p.importInto {} {} [] lists = p.import? := by
  change (Importer.run 0 p.instrs .fresh >>= _) = (Importer.run 0 p.instrs .fresh >>= _)
  cases hrun : Importer.run 0 p.instrs .fresh with
  | error fault => rfl
  | ok s =>
      have hoffsets : s.stores.map Prod.fst = storeOffsets 0 p.instrs := Importer.run_stores hrun
      have hnodup : (s.stores.map Prod.fst).Nodup := hoffsets ▸ nodup_storeOffsets 0 p.instrs
      have hlists : ((s.stores.map Prod.fst).map lists).Nodup :=
        hnodup.map_on (hoffsets ▸ h)
      rw [List.map_map] at hlists
      simp only [bind, Except.bind]
      rw [@shareStores_eq_self lists [] s.stores hlists,
        @shareStores_eq_self id [] s.stores hnodup]

/-- If the stores of a program hold separate lists of operands and the first scan of its trees
returns, then all registers have been found and are registers of the file: those of the trees
that produce values for other trees, those that stores show last, those of all spills, moves and
restores at trees and on edges, and those with which blocks start and end. -/
theorem Program.scan_registers
    (p : Program) (lists : Nat → Nat) (hlists : p.SeparateLists lists) (m : Imported)
    (h : p.importInto {} {} [] lists = .ok m) (settings : Settings) (s : Allocator)
    (hscan : scan m.graph m.ir
      (Allocator.create m.notes settings.registers settings.reuse) = .ok () s) :
    let n := s.notes
    (∀ t ∈ m.ir.trees m.graph,
      (∀ q, m.graph.parent t = some q → 0 ≤ n.reg t ∧ n.reg t < settings.registers) ∧
      (t.kind = .stLocal → ∃ v, t.subtrees = [v] ∧
        (n.operands t).getLast? = some (.literal (.num (n.reg v)))) ∧
      (∀ sp ∈ (n.tree t).spills, IsRegister settings.registers sp.reg) ∧
      ∀ r ∈ (n.tree t).restores, IsRegister settings.registers r.reg) ∧
    (∀ e, (∀ sp ∈ (n.edge e).spills, IsRegister settings.registers sp.reg) ∧
      (∀ mv ∈ (n.edge e).moves, IsRegister settings.registers mv.source ∧
        IsRegister settings.registers mv.target) ∧
      ∀ r ∈ (n.edge e).restores, IsRegister settings.registers r.reg) ∧
    ∀ b crossings, (n.block b).entry = some crossings ∨ (n.block b).exit = some crossings →
      ∀ x ∈ crossings.members, IsRegister settings.registers x.reg := by
  rw [hlists.importInto_eq] at h
  obtain ⟨s₁, fin, hended, hdone, hregister, hempty, hedges⟩ := Program.scan_fulfilled h hscan
  have hresolved := resolveEdges_resolved hedges
  have hcarry := HasScanned.edgesCarry hended hempty hresolved
  refine ⟨?_, ?_, ?_⟩
  · intro t ht
    have hassigned := Program.scan_assigned h hscan ht
    refine ⟨?_, ?_, ?_, hassigned.restores⟩
    · intro q hq
      obtain ⟨r, hr, hrange⟩ := hassigned.reg q hq
      rw [Option.some_inj.mp hr]
      exact hrange
    · intro hkind
      obtain ⟨v, hv, hlast⟩ := hassigned.stored hkind
      exact ⟨v, hv, by simp [Notes.operands, hlast]⟩
    · intro sp hsp
      rw [hresolved.notes_eq.2] at hsp
      exact hregister _ (hdone.spills t sp hsp)
  · intro e
    refine ⟨fun sp hsp => hregister _ (hcarry.spills e sp hsp).2, fun mv hmv => ?_,
      fun r hr => hregister _ (hcarry.restores e r hr).2⟩
    obtain ⟨hsource, i, htarget⟩ := hcarry.moves e mv hmv
    exact ⟨hregister _ hsource.2, hregister _ htarget.2⟩
  · intro b crossings hcrossings x hx
    rw [hresolved.frame.1] at hcrossings
    rcases hcrossings with hentry | hexit
    · exact hregister _ ((HasScanned.entries hended b crossings hentry).reg_range x hx)
    · exact hregister _ ((HasScanned.exits hended b crossings hexit).reg_range x hx)

/-- A sum of three constants that are all pushed first, by way of a variable. -/
def Samples.storedSum : Program where
  locals := 1
  instrs := [instr .push [1], instr .push [2], instr .push [3], instr (.binary .add),
    instr (.binary .add), instr .stLocal [0], instr .ldLocal [0], instr .ret]

/-- With two registers the first of three constants is restored, and the register is found. -/
theorem Program.scan_registers_storedSum :
    Samples.storedSum.SeparateLists id ∧ ∃ m s,
      Samples.storedSum.importInto {} {} [] id = .ok m ∧
      scan m.graph m.ir (Allocator.create m.notes 2 true) = .ok () s ∧
      ∃ t ∈ m.ir.trees m.graph, ∃ r ∈ (s.notes.tree t).restores, IsRegister 2 r.reg := by
  have hlists : Samples.storedSum.SeparateLists id := fun _ _ _ _ hij => hij
  obtain ⟨m, hm, s, hs, t, ht, r, hr, -⟩ :
      ∃ m, Samples.storedSum.importInto {} {} [] id = .ok m ∧
        ∃ s, scan m.graph m.ir (Allocator.create m.notes 2 true) = .ok () s ∧
          ∃ t ∈ m.ir.trees m.graph, ∃ r ∈ (s.notes.tree t).restores, True := by
    decide +kernel
  obtain ⟨-, -, -, hrestores⟩ :=
    (Program.scan_registers _ id hlists m hm { registers := 2 } s hs).1 t ht
  exact ⟨hlists, m, s, hm, hs, t, ht, r, hr, hrestores r hr⟩

/-- Two stores into one variable. -/
def Samples.storedTwice : Program where
  locals := 1
  instrs := [instr .push [7], instr .stLocal [0], instr .push [8], instr .stLocal [0],
    instr .push [9], instr .ret]

/-- A variable that is written on one of two ways to the return. -/
def Samples.storedOnOneWay : Program where
  locals := 2
  instrs := [instr .push [0], instr .stLocal [0], instr .push [1], instr .branch [7, 4],
    instr .push [5], instr .stLocal [1], instr .jmp [7], instr .push [9], instr .ret]

/-- It takes separate lists of operands, and notes without traces of a scan.  Where two stores
hold one list, the first shows the register of the second; and after a second scan, with fewer
registers, the edges still show what the first one noted. -/
theorem Program.registers_unresolved :
    (∃ m s, Samples.storedTwice.importInto {} {} [] (fun i => if i = 3 then 1 else i) = .ok m ∧
      scan m.graph m.ir (Allocator.create m.notes 2 true) = .ok () s ∧
      ∃ t ∈ m.ir.trees m.graph, t.kind = .stLocal ∧ ∀ v, t.subtrees = [v] →
        (s.notes.operands t).getLast? ≠ some (.literal (.num (s.notes.reg v)))) ∧
    ∃ m s, Samples.storedOnOneWay.import? = .ok m ∧
      (do
        scan m.graph m.ir
        modify fun s => Allocator.create s.notes 1 true
        scan m.graph m.ir) (Allocator.create m.notes 2 true) = .ok () s ∧
      ∃ e, ∃ sp ∈ (s.notes.edge e).spills, sp.reg = some 1 := by
  constructor
  · obtain ⟨m, hm, s, hs, t, ht, hkind, hlast⟩ :
        ∃ m, Samples.storedTwice.importInto {} {} [] (fun i => if i = 3 then 1 else i) = .ok m ∧
          ∃ s, scan m.graph m.ir (Allocator.create m.notes 2 true) = .ok () s ∧
            ∃ t ∈ m.ir.trees m.graph, t.kind = .stLocal ∧ ∀ v ∈ t.subtrees,
              (s.notes.operands t).getLast? ≠ some (.literal (.num (s.notes.reg v))) := by
      decide +kernel
    exact ⟨m, s, hm, hs, t, ht, hkind, fun v hv => hlast v (by simp [hv])⟩
  · obtain ⟨m, hm, s, hs, hspills⟩ : ∃ m, Samples.storedOnOneWay.import? = .ok m ∧
        ∃ s, (do
          scan m.graph m.ir
          modify fun s => Allocator.create s.notes 1 true
          scan m.graph m.ir) (Allocator.create m.notes 2 true) = .ok () s ∧
          ∃ sp ∈ (s.notes.edge 2).spills, sp.reg = some 1 := by
      decide +kernel
    exact ⟨m, s, hm, hs, 2, hspills⟩

end LinearScan
