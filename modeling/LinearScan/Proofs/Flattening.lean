import LinearScan.Proofs.Acceptance
import LinearScan.Proofs.EntrySets
import LinearScan.Proofs.Simulation

/-!
# Flattening undoes reading

Jumps lead to the start of the program or behind an instruction that leaves its block, and the
stack is empty behind every return.  Then the blocks of a program that was read are its
segments: the stretches of code up to an instruction that leaves.  Going through the trees of a
block in execution order one meets the instructions of its segment again, one tree for each.
-/

namespace LinearScan

open Alloc

/-! ## Segments -/

/-- The segments of code that starts at offset `i`, with their own offsets: each of them ends
with an instruction that leaves its block. -/
def segmentsFrom : Nat → List Instr → List (Nat × List Instr)
  | _, [] => []
  | i, instr :: rest =>
      if instr.opcode.leaves then
        (i, [instr]) :: segmentsFrom (i + 1) rest
      else
        match segmentsFrom (i + 1) rest with
        | [] => [(i, [instr])]
        | (_, segment) :: segments => (i, instr :: segment) :: segments

/-- The first segment goes up to the first instruction that leaves its block. -/
theorem segmentsFrom_append {body rest : List Instr} {last : Instr}
    (hbody : ∀ instr ∈ body, instr.opcode.leaves = false) (hlast : last.opcode.leaves = true)
    (i : Nat) :
    segmentsFrom i (body ++ [last] ++ rest) =
      (i, body ++ [last]) :: segmentsFrom (i + (body ++ [last]).length) rest := by
  induction body generalizing i with
  | nil => simp [segmentsFrom, hlast]
  | cons instr body ih =>
      have hrest := ih (fun x hx => hbody x (by simp [hx])) (i + 1)
      simp only [List.append_assoc, List.cons_append] at hrest ⊢
      rw [segmentsFrom, hrest, hbody instr (by simp)]
      simp only [Bool.false_eq_true, if_false, List.length_cons, List.length_append]
      congr 2
      omega

/-- The instruction becomes the tree. -/
inductive Becomes (g : Graph) (instr : Instr) : Tree → Prop where
  | ldLocal {id : TreeId} {block : BlockId} {ts : List Tree} (hop : instr.opcode = .ldLocal) :
      Becomes g instr (.node id .ldLocal (instr.operands.map .literal) block ts)
  | stLocal {id : TreeId} {block : BlockId} {ts : List Tree} (hop : instr.opcode = .stLocal) :
      Becomes g instr (.node id .stLocal (instr.operands.map .literal) block ts)
  | const {id : TreeId} {block : BlockId} {ts : List Tree} (hop : instr.opcode = .push) :
      Becomes g instr (.node id .const (instr.operands.map .literal) block ts)
  | discard {id : TreeId} {block : BlockId} {ts : List Tree} (hop : instr.opcode = .pop) :
      Becomes g instr (.node id .discard [] block ts)
  | binOp {id : TreeId} {block : BlockId} {ts : List Tree} {op : Operator}
      (hop : instr.opcode = .binary op) :
      Becomes g instr (.node id .binOp [.operator op] block ts)
  | jmp {id : TreeId} {block : BlockId} {ts : List Tree} {e : EdgeId} {target : BlockId}
      (hop : instr.opcode = .jmp) (htarget : Names g instr 0 target) :
      Becomes g instr (.node id .jmp [.edge e target] block ts)
  | branch {id : TreeId} {block : BlockId} {ts : List Tree} {e f : EdgeId} {yes no : BlockId}
      (hop : instr.opcode = .branch) (hyes : Names g instr 0 yes) (hno : Names g instr 1 no) :
      Becomes g instr (.node id .branch [.edge e yes, .edge f no] block ts)
  | ret {id : TreeId} {block : BlockId} {ts : List Tree} (hop : instr.opcode = .ret) :
      Becomes g instr (.node id .ret [] block ts)

/-- The instructions become the trees, in order; other instructions than those that are known
become nothing. -/
def Become (g : Graph) (instrs : List Instr) (ts : List Tree) : Prop :=
  List.Forall₂ (Becomes g) (instrs.filter fun instr => instr.opcode.isKnown) ts

section Stretches

variable {code body instrs rest : List Instr} {g : Graph} {i j k : Nat} {ts us : List Tree}
  {t : Tree} {instr last : Instr}

theorem Becomes.isKnown (h : Becomes g instr t) : instr.opcode.isKnown = true := by
  cases h <;> simp_all [Opcode.isKnown]

theorem Becomes.leaves_eq (h : Becomes g instr t) : instr.opcode.leaves = t.kind.leaves := by
  cases h <;> simp_all [Opcode.leaves, TreeKind.leaves, Tree.kind]

namespace Become

theorem append (h : Become g instrs ts) (h' : Become g rest us) :
    Become g (instrs ++ rest) (ts ++ us) := by
  rw [Become, List.filter_append]
  exact List.rel_append h h'

theorem snoc (h : Become g instrs ts) (ht : Becomes g instr t) :
    Become g (instrs ++ [instr]) (ts ++ [t]) := by
  refine h.append ?_
  rw [Become, List.filter_cons, ht.isKnown]
  exact .cons ht .nil

theorem skip (h : Become g instrs ts) {name : String} (hop : instr.opcode = .other name) :
    Become g (instrs ++ [instr]) ts := by
  have hskip : Become g [instr] [] := by
    rw [Become, List.filter_cons, hop]
    exact .nil
  have happend := h.append hskip
  rwa [List.append_nil] at happend

end Become

/-- The instructions stand in the code from offset `i` on; behind them stands `j`. -/
structure Stretch (code : List Instr) (i : Nat) (instrs : List Instr) (j : Nat) : Prop where
  drop_eq : code.drop i = instrs ++ code.drop j
  length_eq : i + instrs.length = j

namespace Stretch

theorem nil (code : List Instr) (i : Nat) : Stretch code i [] i :=
  ⟨rfl, rfl⟩

theorem snoc (h : Stretch code i instrs j) (hinstr : code[j]? = some instr) :
    Stretch code i (instrs ++ [instr]) (j + 1) where
  drop_eq := by
    obtain ⟨hlt, heq⟩ := List.getElem?_eq_some_iff.mp hinstr
    rw [h.drop_eq, List.drop_eq_getElem_cons hlt, heq, List.append_assoc]
    rfl
  length_eq := by
    rw [List.length_append, ← Nat.add_assoc, h.length_eq]
    rfl

theorem trans (h : Stretch code i instrs j) (h' : Stretch code j rest k) :
    Stretch code i (instrs ++ rest) k where
  drop_eq := by rw [h.drop_eq, h'.drop_eq, List.append_assoc]
  length_eq := by rw [List.length_append, ← Nat.add_assoc, h.length_eq, h'.length_eq]

theorem getElem?_eq (h : Stretch code i instrs j) {n : Nat} (hn : n < instrs.length) :
    code[i + n]? = instrs[n]? := by
  rw [← List.getElem?_drop, h.drop_eq, List.getElem?_append_left hn]

/-- Behind an instruction that leaves its block control may arrive. -/
theorem isTarget (h : Stretch code i (body ++ [last]) j) (hleaves : last.opcode.leaves = true) :
    IsTarget code j := by
  have hexit := h.getElem?_eq (n := body.length) (by simp)
  rw [List.getElem?_concat_length] at hexit
  have hlength := h.length_eq
  rw [List.length_append, List.length_singleton] at hlength
  rw [← hlength, ← Nat.add_assoc]
  exact (IsTarget.succ_iff hexit).mpr hleaves

/-- Behind instructions that stay in their block control may not arrive. -/
theorem not_isTarget (h : Stretch code i (body ++ [last]) j)
    (hstay : ∀ instr ∈ body, instr.opcode.leaves = false) {offset : Int} (hi : (i : Int) < offset)
    (hj : offset < j) : ¬ IsTarget code offset := by
  have hlength := h.length_eq
  rw [List.length_append, List.length_singleton] at hlength
  rintro (hzero | ⟨-, hany⟩)
  · omega
  · obtain ⟨instr, hinstr, hleaves⟩ := (Option.any_eq_true _ _).mp hany
    have hinside : (offset - 1).toNat - i < body.length := by omega
    rw [show (offset - 1).toNat = i + ((offset - 1).toNat - i) by omega,
      h.getElem?_eq (by simp; omega), List.getElem?_append_left hinside] at hinstr
    rw [hstay instr (List.mem_of_getElem? hinstr)] at hleaves
    cases hleaves

end Stretch

theorem IsTarget.le_length {offset : Int} (h : IsTarget code offset) (hpos : 0 < offset) :
    offset ≤ code.length := by
  obtain rfl | ⟨-, hany⟩ := h
  · omega
  · obtain ⟨instr, hinstr, -⟩ := (Option.any_eq_true _ _).mp hany
    have hlt := (List.getElem?_eq_some_iff.mp hinstr).1
    omega

/-! ## What stands in a stretch of code -/

/-- A tree on the stack, with its subtrees in its place. -/
theorem flatMap_postorder_cons (t : Tree) (ts : List Tree) :
    (t :: ts).reverse.flatMap Tree.postorder =
      (t.subtrees.reverse ++ ts).reverse.flatMap Tree.postorder ++ [t] := by
  rw [List.reverse_cons, List.reverse_append, List.reverse_reverse, List.flatMap_append,
    List.flatMap_append, List.flatMap_singleton, Tree.postorder_eq t, List.append_assoc]

/-- The instructions that put trees on the stack are those of the trees. -/
theorem Stacks.stretch (h : Stacks code i ts j) :
    ∃ instrs, Stretch code i instrs j ∧ (∀ instr ∈ instrs, instr.opcode.leaves = false) ∧
      Become g instrs (ts.reverse.flatMap Tree.postorder) := by
  induction h with
  | nil => exact ⟨[], .nil code i, by simp, .nil⟩
  | skip _ hinstr hop ih =>
      obtain ⟨instrs, hstretch, hstay, hbecome⟩ := ih
      exact ⟨_, hstretch.snoc hinstr,
        List.forall_mem_append.mpr ⟨hstay, by simp [hop, Opcode.leaves]⟩, hbecome.skip hop⟩
  | ldLocal _ hinstr hop ih =>
      obtain ⟨instrs, hstretch, hstay, hbecome⟩ := ih
      refine ⟨_, hstretch.snoc hinstr,
        List.forall_mem_append.mpr ⟨hstay, by simp [hop, Opcode.leaves]⟩, ?_⟩
      rw [flatMap_postorder_cons]
      exact hbecome.snoc (.ldLocal hop)
  | const _ hinstr hop ih =>
      obtain ⟨instrs, hstretch, hstay, hbecome⟩ := ih
      refine ⟨_, hstretch.snoc hinstr,
        List.forall_mem_append.mpr ⟨hstay, by simp [hop, Opcode.leaves]⟩, ?_⟩
      rw [flatMap_postorder_cons]
      exact hbecome.snoc (.const hop)
  | binOp _ hinstr hop ih =>
      obtain ⟨instrs, hstretch, hstay, hbecome⟩ := ih
      refine ⟨_, hstretch.snoc hinstr,
        List.forall_mem_append.mpr ⟨hstay, by simp [hop, Opcode.leaves]⟩, ?_⟩
      rw [flatMap_postorder_cons]
      exact hbecome.snoc (.binOp hop)

theorem Stacks.depth_eq (h : Stacks code i ts j) :
    depth (code.take j) = depth (code.take i) + ts.length := by
  induction h with
  | nil => simp
  | skip _ hinstr hop ih => rw [depth_take_succ hinstr, hop, ih, Opcode.balance, Int.add_zero]
  | ldLocal _ hinstr hop ih =>
      rw [depth_take_succ hinstr, hop, ih, Opcode.balance, List.length_cons]
      omega
  | const _ hinstr hop ih =>
      rw [depth_take_succ hinstr, hop, ih, Opcode.balance, List.length_cons]
      omega
  | binOp _ hinstr hop ih =>
      rw [depth_take_succ hinstr, hop, ih, Opcode.balance]
      simp only [List.length_cons]
      omega

/-- The instructions `body` and `last` become the trees, the last of them the last; `last` may
leave the block, the others stay. -/
structure Forms (code : List Instr) (g : Graph) (i : Nat) (body : List Instr) (last : Instr)
    (ts : List Tree) (t : Tree) (j : Nat) : Prop where
  stretch : Stretch code i (body ++ [last]) j
  staying : ∀ instr ∈ body, instr.opcode.leaves = false
  become : Become g (body ++ [last]) ts
  last_becomes : Becomes g last t
  depth_eq : depth (code.take j) = 0

/-- A statement is formed by its instructions, if nothing is left on the stack. -/
theorem Statement.forms (h : Statement code g i t j) (hrets : RetsEmpty code)
    (hdepth : depth (code.take i) = 0) : ∃ body last, Forms code g i body last t.postorder t j := by
  -- The operands of the statement are all that stands on the stack before its last instruction.
  have hforms : ∀ {k : Nat} {last : Instr}, Stacks code i t.subtrees.reverse k →
      code[k]? = some last → Becomes g last t →
      last.opcode.balance = -(t.subtrees.length : Int) →
      ∃ body last, Forms code g i body last t.postorder t (k + 1) := by
    intro k last hstacks hlast hbecomes hbalance
    obtain ⟨body, hstretch, hstay, hbecome⟩ := hstacks.stretch (g := g)
    rw [List.reverse_reverse] at hbecome
    refine ⟨body, last, hstretch.snoc hlast, hstay, ?_, hbecomes, ?_⟩
    · rw [Tree.postorder_eq]
      exact hbecome.snoc hbecomes
    · rw [depth_take_succ hlast, hstacks.depth_eq, hbalance, hdepth, List.length_reverse]
      omega
  cases h with
  | stLocal hv hinstr hop => exact hforms hv hinstr (.stLocal hop) (by rw [hop]; rfl)
  | discard hv hinstr hop => exact hforms hv hinstr (.discard hop) (by rw [hop]; rfl)
  | jmp hv hinstr hop htarget => exact hforms hv hinstr (.jmp hop htarget) (by rw [hop]; rfl)
  | branch hv hinstr hop hyes hno =>
      exact hforms hv hinstr (.branch hop hyes hno) (by rw [hop]; rfl)
  | @ret v ts k instr id block hv hinstr hop =>
      have hlt := (List.getElem?_eq_some_iff.mp hinstr).1
      have hempty := hrets k hlt (by rw [hinstr, Option.map_some, hop])
      rw [depth_take_succ hinstr, hv.depth_eq, hdepth, hop, Opcode.balance, List.length_cons]
        at hempty
      obtain rfl : ts = [] := List.eq_nil_of_length_eq_zero (by omega)
      exact hforms hv hinstr (.ret hop) (by rw [hop]; rfl)

/-- The statements of a block are formed by the instructions of a segment. -/
theorem Reads.forms (h : Reads code g i ts j) (hrets : RetsEmpty code)
    (hdepth : depth (code.take i) = 0) (hleaving : Leaving ts) :
    ∃ body last t, ts.getLast? = some t ∧ last.opcode.leaves = true ∧
      Forms code g i body last (ts.flatMap Tree.postorder) t j := by
  induction h with
  | nil =>
      obtain ⟨t, ht, -⟩ := hleaving
      cases ht
  | @cons i j k t ts hstatement hrest ih =>
      obtain ⟨body, last, hforms⟩ := hstatement.forms hrets hdepth
      have hleaves := hforms.last_becomes.leaves_eq
      cases ts with
      | nil =>
          obtain ⟨u, hu, huleaves, -⟩ := hleaving
          obtain rfl : t = u := by simpa using hu
          cases hrest
          refine ⟨body, last, t, rfl, hleaves.trans huleaves, ?_⟩
          rwa [List.flatMap_singleton]
      | cons u ts =>
          have hstay : t.kind.leaves = false := by
            obtain ⟨-, -, -, hothers⟩ := hleaving
            exact hothers t (by simp)
          obtain ⟨body', last', t', ht', hleaves', hforms'⟩ :=
            ih hforms.depth_eq (hleaving.tail hstay)
          refine ⟨body ++ [last] ++ body', last', t', by simpa using ht', hleaves', ?_⟩
          refine {
            stretch := ?_
            staying := ?_
            become := ?_
            last_becomes := hforms'.last_becomes
            depth_eq := hforms'.depth_eq }
          · rw [List.append_assoc]
            exact hforms.stretch.trans hforms'.stretch
          · refine List.forall_mem_append.mpr ⟨List.forall_mem_append.mpr ⟨hforms.staying, ?_⟩,
              hforms'.staying⟩
            simpa using hleaves.trans hstay
          · rw [List.append_assoc, List.flatMap_cons]
            exact hforms.become.append hforms'.become

/-- The block `b` holds the segment of code that starts at `i`. -/
structure Holds (g : Graph) (b : BlockId) (i : Nat) (segment : List Instr) : Prop where
  offset_eq : (g.block b).offset = i
  become : Become g segment (g.treesOf b)
  staying : ∀ instr ∈ segment.dropLast, instr.opcode.leaves = false
  terminator : ∃ last t, segment.getLast? = some last ∧ last.opcode.leaves = true ∧
    g.terminator b = .ok t ∧ Becomes g last t

theorem treesOf_eq_flatMap_rootsOf (g : Graph) (b : BlockId) :
    g.treesOf b = (g.rootsOf b).flatMap Tree.postorder := by
  rw [Graph.treesOf, Graph.rootsOf, List.flatMap_map]

/-- A block that is complete holds the segment that starts at its offset. -/
theorem Complete.holds {b : BlockId} (h : Complete code g b) (hended : g.Ended)
    (hoffset : (g.block b).offset = i) (hrets : RetsEmpty code)
    (hdepth : depth (code.take i) = 0) :
    ∃ body last j, Stretch code i (body ++ [last]) j ∧
      (∀ instr ∈ body, instr.opcode.leaves = false) ∧ last.opcode.leaves = true ∧
      depth (code.take j) = 0 ∧ Holds g b i (body ++ [last]) := by
  obtain ⟨i', j, hoffset', hreads, hleaving⟩ := h
  obtain rfl : i = i' := Int.ofNat.inj (hoffset.symm.trans hoffset')
  obtain ⟨body, last, t, ht, hleaves, hforms⟩ := hreads.forms hrets hdepth hleaving
  refine ⟨body, last, j, hforms.stretch, hforms.staying, hleaves, hforms.depth_eq, hoffset, ?_, ?_,
    last, t, by simp, hleaves, ?_, hforms.last_becomes⟩
  · rw [treesOf_eq_flatMap_rootsOf]
    exact hforms.become
  · rw [List.dropLast_concat]
    exact hforms.staying
  · rw [Graph.rootsOf, List.getLast?_map, Option.map_eq_some_iff] at ht
    obtain ⟨r, hr, rfl⟩ := ht
    rw [Graph.terminator, hended b, hr]

/-- Where one block ends the next one starts. -/
theorem offset_next {done bs : List BlockId} {b : BlockId} (hrising : g.Rising (done ++ b :: bs))
    (htargets : ∀ c ∈ done ++ b :: bs, IsTarget code (g.block c).offset)
    (hmade : ∀ offset : Nat, offset < code.length → IsTarget code offset →
      ∃ c ∈ done ++ b :: bs, (g.block c).offset = offset)
    (hoffset : (g.block b).offset = i) (hstretch : Stretch code i (body ++ [last]) j)
    (hstay : ∀ instr ∈ body, instr.opcode.leaves = false) (hleaves : last.opcode.leaves = true) :
    (bs = [] → code.length ≤ j) ∧ ∀ c ∈ bs.head?, (g.block c).offset = j := by
  obtain ⟨-, hrising', hdone⟩ := List.pairwise_append.mp hrising
  obtain ⟨hgt, hrest⟩ := List.pairwise_cons.mp hrising'
  have hlength := hstretch.length_eq
  rw [List.length_append, List.length_singleton] at hlength
  -- A block starts behind the segment, unless the program ends there.
  have hnext : j < code.length → ∃ c ∈ bs, (g.block c).offset = j := by
    intro hlt
    obtain ⟨c, hc, hcoffset⟩ := hmade j hlt (hstretch.isTarget hleaves)
    rcases List.mem_append.mp hc with hc | hc
    · have hbefore := hdone c hc b (by simp)
      omega
    · rcases List.mem_cons.mp hc with rfl | hc
      · omega
      · exact ⟨c, hc, hcoffset⟩
  constructor
  · rintro rfl
    by_contra hlt
    obtain ⟨c, hc, -⟩ := hnext (by omega)
    cases hc
  · intro c hc
    cases bs with
    | nil => cases hc
    | cons d bs =>
        obtain rfl : d = c := by simpa using hc
        have htarget := htargets d (by simp)
        have hge : (j : Int) ≤ (g.block d).offset := by
          by_contra hlt
          exact hstretch.not_isTarget hstay (hoffset ▸ hgt d (by simp)) (by omega) htarget
        have hle := htarget.le_length (by omega)
        by_contra hne
        obtain ⟨c, hc, hcoffset⟩ := hnext (by omega)
        rcases List.mem_cons.mp hc with rfl | hc
        · exact hne hcoffset
        · have hafter := (List.pairwise_cons.mp hrest).1 c hc
          omega

/-- The blocks of a chain hold the segments of the code, one each. -/
theorem forall₂_holds (done : List BlockId) {bs : List BlockId} (hended : g.Ended)
    (hrising : g.Rising (done ++ bs))
    (htargets : ∀ b ∈ done ++ bs, IsTarget code (g.block b).offset)
    (hmade : ∀ offset : Nat, offset < code.length → IsTarget code offset →
      ∃ b ∈ done ++ bs, (g.block b).offset = offset)
    (hcomplete : ∀ b ∈ bs, Complete code g b) (hrets : RetsEmpty code)
    (hdepth : depth (code.take i) = 0) (hend : bs = [] → code.length ≤ i)
    (hhead : ∀ b ∈ bs.head?, (g.block b).offset = i) :
    List.Forall₂ (fun b segment => Holds g b segment.1 segment.2) bs
      (segmentsFrom i (code.drop i)) := by
  induction bs generalizing i done with
  | nil =>
      rw [List.drop_eq_nil_of_le (hend rfl)]
      exact .nil
  | cons b bs ih =>
      have hoffset : (g.block b).offset = i := hhead b (by simp)
      obtain ⟨body, last, j, hstretch, hstay, hleaves, hdepth', hholds⟩ :=
        (hcomplete b (by simp)).holds hended hoffset hrets hdepth
      obtain ⟨hend', hhead'⟩ :=
        offset_next hrising htargets hmade hoffset hstretch hstay hleaves
      rw [hstretch.drop_eq, segmentsFrom_append hstay hleaves, hstretch.length_eq]
      have hassoc : done ++ b :: bs = (done ++ [b]) ++ bs := by simp
      exact .cons hholds (ih (done ++ [b]) (hassoc ▸ hrising) (hassoc ▸ htargets) (hassoc ▸ hmade)
        (fun c hc => hcomplete c (by simp [hc])) hdepth' hend' hhead')

end Stretches

/-- The segments of a program make up the program. -/
theorem flatMap_segmentsFrom (i : Nat) (code : List Instr) :
    (segmentsFrom i code).flatMap Prod.snd = code := by
  induction code generalizing i with
  | nil => rfl
  | cons instr rest ih =>
      have hrest := ih (i + 1)
      rw [segmentsFrom]
      split
      · rw [List.flatMap_cons, hrest]
        rfl
      · cases hsegments : segmentsFrom (i + 1) rest with
        | nil =>
            rw [hsegments] at hrest
            rw [← hrest]
            rfl
        | cons segment segments =>
            rw [hsegments, List.flatMap_cons] at hrest
            simp [hrest]

/-! ## Places and predecessors -/

section Places

variable {g : Graph} {pending : List Tree} {b c : BlockId}

/-- The last tree of a block is the one with which the block ends. -/
theorem getLast?_treesOf (hended : g.Ended) {t : Tree} (ht : (g.treesOf b).getLast? = some t) :
    ∃ s ∈ g.stmtsOf b, (g.block b).last = some s ∧ (g.stmt s).tree = t := by
  cases hlast : (g.stmtsOf b).getLast? with
  | none =>
      rw [Graph.treesOf, List.getLast?_eq_none_iff.mp hlast] at ht
      cases ht
  | some s =>
      obtain ⟨ss, hss⟩ := List.getLast?_eq_some_iff.mp hlast
      refine ⟨s, by simp [hss], (hended b).trans hlast, ?_⟩
      rw [Graph.treesOf, hss, List.flatMap_append, List.flatMap_singleton, Tree.postorder_eq,
        ← List.append_assoc, List.getLast?_concat] at ht
      exact Option.some_inj.mp ht

/-- No tree stands in two blocks that end differently. -/
theorem treesFrom_ids_nodup (hg : g.Formed pending) (hended : g.Ended) :
    ((g.treesFrom 0).map Tree.id).Nodup := by
  rw [Graph.treesFrom, List.map_flatMap, List.nodup_flatMap]
  refine ⟨fun b _ => hg.treesOf_ids_nodup b, ?_⟩
  refine hg.chained.nodup.imp ?_
  intro b c hbc
  refine List.disjoint_left.mpr fun k hkb hkc => ?_
  obtain ⟨t, ht, rfl⟩ := List.mem_map.mp hkb
  obtain ⟨u, hu, hid⟩ := List.mem_map.mp hkc
  obtain ⟨before, after, hsplit⟩ := List.append_of_mem ht
  obtain ⟨before', after', hsplit'⟩ := List.append_of_mem hu
  -- What follows is the same in both blocks, and so is the last tree.
  have hafter := hg.after_eq hsplit hsplit' hid.symm
  obtain rfl := hg.planted.eq_of_id_eq (hg.mem_allTrees hu) (hg.mem_allTrees ht) hid
  obtain ⟨last, hlast⟩ : ∃ last, (u :: after).getLast? = some last :=
    Option.isSome_iff_exists.mp (by simp)
  obtain ⟨s, -, hs, hstree⟩ := getLast?_treesOf (b := b) hended (t := last) (by
    rw [hsplit, List.getLast?_append, hlast, Option.some_or])
  obtain ⟨r, -, hr, hrtree⟩ := getLast?_treesOf (b := c) hended (t := last) (by
    rw [hsplit', ← hafter, List.getLast?_append, hlast, Option.some_or])
  have hsr : s = r := hg.stmt_eq_of_mem (hg.linked.last_lt hs) (hg.linked.last_lt hr)
    (Tree.mem_postorder_self _) (Tree.mem_postorder_self _) (by rw [hstree, hrtree])
  exact hbc (hg.linked.last_inj hs (hsr ▸ hr))

/-- Trees that are numbered once get consecutive places. -/
theorem Notes.map_index_number {ts : List Tree} (hnodup : (ts.map Tree.id).Nodup) (n : Notes)
    (start : Nat) :
    ts.map (n.number start ts).index = List.range' start ts.length := by
  induction ts generalizing n start with
  | nil => rfl
  | cons t ts ih =>
      obtain ⟨hfresh, hnodup⟩ := List.nodup_cons.mp hnodup
      rw [List.map_cons, List.length_cons, List.range'_succ, Notes.number, ih hnodup,
        Notes.index_number_of_not_mem]
      · rw [Notes.index, Notes.tree_modifyTree, if_pos rfl]
      · intro v hv hid
        exact hfresh (hid ▸ List.mem_map_of_mem hv)

end Places

/-- Jumps lead to the start or behind instructions that leave their block, and the stack is
empty behind every return: then reading a program can be undone.  The blocks, with rising
offsets, are the segments of the program, one for each.  The trees of a block in execution order
are the known instructions of its segment, and its last statement is the instruction that ends
the segment; its edges lead to the blocks that the instruction names.  The trees are numbered
from zero on, and the predecessors of a block are the sources of the edges to it, in the order of
the blocks. -/
theorem Program.import?_flattens
    (p : Program) (m : Imported) (h : p.import? = .ok m)
    (hjumps : JumpsBehindExits p.instrs) (hrets : RetsEmpty p.instrs) :
    let bs := m.ir.blocks m.graph
    (segmentsFrom 0 p.instrs).flatMap Prod.snd = p.instrs ∧
      m.graph.Rising bs ∧
      List.Forall₂ (fun b segment => Holds m.graph b segment.1 segment.2) bs
        (segmentsFrom 0 p.instrs) ∧
      (∀ b ∈ bs, ∀ x ∈ m.graph.exits b, x.2 ∈ bs) ∧
      (m.ir.trees m.graph).map m.notes.index = List.range (m.ir.trees m.graph).length ∧
      ∀ b, (m.notes.block b).predecessors = m.graph.sourcesOf bs b := by
  have hret : ∀ k instr, k + 1 < p.instrs.length → p.instrs[k]? = some instr →
      instr.opcode = .ret → depth (p.instrs.take (k + 1)) = 0 := by
    intro k instr hk hinstr hop
    exact hrets k (Nat.lt_of_succ_lt hk) (by rw [hinstr, Option.map_some, hop])
  obtain ⟨hfirst, k, done, current, hk, hlayout, hcomplete⟩ := Program.import?_layout h hjumps hret
  obtain ⟨⟨pending, hg⟩, -, -⟩ := Program.import?_formed h
  have hblocks : m.ir.blocks m.graph = done ++ [current] := by
    rw [Ir.blocks, hfirst, hlayout.chain]
  refine ⟨flatMap_segmentsFrom 0 p.instrs, ?_, ?_, ?_, ?_, Program.import?_predecessors h⟩
  · rw [hblocks]
    exact hlayout.rising
  · rw [hblocks]
    refine forall₂_holds [] (i := 0) hlayout.ended hlayout.rising hlayout.isTarget ?_
      hcomplete hrets rfl (by simp) ?_
    · intro offset hlt htarget
      exact hlayout.target_made offset (by omega) htarget
    · intro b hb
      -- The chain starts with the block at the start of the program.
      have hzero : (m.graph.blocksFrom 0).head? = some 0 := by
        obtain ⟨fuel, hfuel⟩ := Nat.exists_eq_succ_of_ne_zero
          (Nat.ne_of_gt (Nat.zero_lt_of_lt (hlayout.mem_lt (b := current) (by simp))))
        rw [Graph.blocksFrom, hfuel]
        rfl
      rw [hlayout.chain] at hzero
      obtain rfl : b = 0 := Option.some_inj.mp (hb.symm.trans hzero)
      exact hlayout.zero_offset
  · intro b hb x hx
    obtain ⟨r, hr, hedge⟩ := mem_exits hx
    have htree := Graph.mem_statementTrees (hg.linked.last_lt hr)
    rw [Ir.blocks, hfirst]
    exact (hg.chained.mem_iff x.2).mpr
      (hg.planted.edge_lt _ (List.mem_append_left _ htree) x hedge).2
  · have hnodup := treesFrom_ids_nodup hg hlayout.ended
    obtain ⟨s, n, -, -, hgraph, hir, -, hnotes, -⟩ := Program.import?_cases h
    rw [Ir.trees, hfirst, hnotes, ← hgraph, List.range_eq_range']
    exact Notes.map_index_number hnodup n 0

/-- A loop that counts down has three segments, with its body in the middle. -/
theorem Program.import?_flattens_countdown :
    ∃ m, (Samples.countdown 3).import? = .ok m ∧
      JumpsBehindExits (Samples.countdown 3).instrs ∧ RetsEmpty (Samples.countdown 3).instrs ∧
      (m.ir.blocks m.graph).map (fun b => (m.graph.block b).offset) = [0, 5, 15] ∧
      List.Forall₂ (fun b segment => Holds m.graph b segment.1 segment.2) (m.ir.blocks m.graph)
        (segmentsFrom 0 (Samples.countdown 3).instrs) := by
  obtain ⟨m, hm, hblocks⟩ : ∃ m, (Samples.countdown 3).import? = .ok m ∧
      (m.ir.blocks m.graph).map (fun b => (m.graph.block b).offset) = [0, 5, 15] := by
    decide +kernel
  have hjumps : JumpsBehindExits (Samples.countdown 3).instrs := by decide +kernel
  have hrets : RetsEmpty (Samples.countdown 3).instrs := by decide +kernel
  obtain ⟨-, -, hholds, -⟩ := Program.import?_flattens _ m hm hjumps hrets
  exact ⟨m, hm, hjumps, hrets, hblocks, hholds⟩

end LinearScan
