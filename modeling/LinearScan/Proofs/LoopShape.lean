import LinearScan.Measure
import LinearScan.Proofs.Drafts

/-!
# The graph of a loop

The loop with a long body starts with a store for each variable.  Behind them stands its head, a
branch that leaves the loop or enters the body, and the body ends with a jump back to the head.
When that jump is read, the stores and the branch are still one block; it cuts the branch off.  The
graph has five blocks, whatever the length of the body and the number of variables.
-/

namespace LinearScan

namespace Redraws

variable {i n width : Nat} {v : View}

/-- A constant is stored. -/
theorem pushStore (i : Nat) (hempty : v.sizes = []) (pushed stored : List Literal) :
    Redraws i [⟨.push, pushed⟩, ⟨.stLocal, stored⟩] v { v with
      start := i + 2
      cur := v.cur.push ⟨v.start, .stLocal, stored.map .literal, 2⟩ } := by
  have hstore := (push i v pushed).cons (store (i + 1) (by simp [View.fold, hempty]) stored)
  simpa [View.fold, View.finish, hempty] using hstore

/-- The result of an operation on two variables is stored. -/
theorem loadsStore (i : Nat) (hempty : v.sizes = []) (left right : List Literal) (op : Operator)
    (stored : List Literal) :
    Redraws i [⟨.ldLocal, left⟩, ⟨.ldLocal, right⟩, ⟨.binary op, []⟩, ⟨.stLocal, stored⟩] v { v with
      start := i + 4
      cur := v.cur.push ⟨v.start, .stLocal, stored.map .literal, 4⟩ } := by
  have hstore := (load i v left).cons <| (load (i + 1) _ right).cons <|
    (binary (i + 1 + 1) (by simp [View.fold, hempty]) op []).cons <|
    store (i + 1 + 1 + 1) (by simp [View.fold, hempty]) stored
  simpa [View.fold, View.finish, hempty] using hstore

/-- Statements of the same length, one after the other. -/
theorem flatMap_range {f : Nat → List Instr} {line : Nat → Outline}
    (hline : ∀ k (v : View), v.sizes = [] → v.start = i + width * k →
      Redraws v.start (f k) v { v with start := v.start + width, cur := v.cur.push (line k) })
    (hlength : ∀ k, (f k).length = width)
    (hempty : v.sizes = []) (hstart : v.start = i) (n : Nat) :
    Redraws i ((List.range n).flatMap f) v { v with
      start := i + width * n
      cur := ⟨v.cur.offset, v.cur.lines ++ (List.range n).map line⟩ } := by
  induction n with
  | zero =>
      subst hstart
      simpa using nil v.start v
  | succ n ih =>
      have hlength' : i + ((List.range n).flatMap f).length = i + width * n := by
        simp [List.length_flatMap, hlength, Nat.mul_comm]
      have hlast := hline n { v with
        start := i + width * n
        cur := ⟨v.cur.offset, v.cur.lines ++ (List.range n).map line⟩ } hempty rfl
      rw [List.range_succ, List.flatMap_append, List.flatMap_singleton]
      refine ih.append hlength' ?_
      simpa [Draft.push, Nat.mul_succ, Nat.add_assoc] using hlast

end Redraws

/-! ## The parts of the loop -/

namespace Samples

/-- The stores with which the loop starts. -/
def loopStores (locals : Nat) : List Outline :=
  (List.range locals).map fun (k : Nat) => ⟨2 * k, .stLocal, [.literal (.num k)], 2⟩

/-- The operations of the body, of which the first stands at `entry`. -/
def loopOperations (n locals : Nat) (entry : Int) : List Outline :=
  (List.range n).map fun (k : Nat) =>
    ⟨entry + 4 * k, .stLocal, [.literal (.num (((k + 2 : Nat) : Int).fmod locals))], 4⟩

/-- The blocks of the loop. -/
def loopDrafts (n locals : Nat) : List Draft :=
  [⟨0, loopStores locals ++ [⟨2 * locals - 2, .jmp, [.block (2 * locals)], 1⟩]⟩,
    ⟨2 * locals,
      [⟨2 * locals, .branch, [.block (2 * locals + 4 * n + 5), .block (2 * locals + 4)], 4⟩]⟩,
    ⟨2 * locals + 4, loopOperations n locals (2 * locals + 4) ++
      [⟨2 * locals + 4 * n + 4, .jmp, [.block (2 * locals)], 1⟩]⟩,
    ⟨2 * locals + 4 * n + 5, [⟨2 * locals + 4 * n + 5, .ret, [], 2⟩]⟩,
    ⟨2 * locals + 4 * n + 7, [⟨2 * locals + 4 * n + 7, .ret, [], 2⟩]⟩]

variable {locals : Nat}

theorem loopStores_offset_lt {x : Outline} (hx : x ∈ loopStores locals) :
    x.offset < 2 * locals := by
  obtain ⟨k, hk, rfl⟩ := List.mem_map.mp hx
  have hlt := List.mem_range.mp hk
  change 2 * (k : Int) < 2 * locals
  omega

theorem getLast?_loopStores (hlocals : 1 ≤ locals) :
    (loopStores locals).getLast?.map Outline.offset = some (2 * (locals : Int) - 2) := by
  obtain ⟨k, rfl⟩ := Nat.exists_eq_add_of_le' hlocals
  rw [loopStores, List.range_succ, List.map_append, List.map_singleton, List.getLast?_concat]
  simp only [Option.map_some, Option.some_inj]
  omega

/-- The stores come into the first block. -/
theorem redraws_loopStores (locals : Nat) :
    Redraws 0
      ((List.range locals).flatMap fun (k : Nat) => [instr .push [k], instr .stLocal [k]])
      { start := 0, cur := ⟨0, []⟩ } { start := 2 * locals, cur := ⟨0, loopStores locals⟩ } := by
  have hstore : ∀ k (v : View), v.sizes = [] → v.start = 0 + 2 * k →
      Redraws v.start [instr .push [k], instr .stLocal [k]] v { v with
        start := v.start + 2
        cur := v.cur.push ⟨2 * (k : Int), .stLocal, [.literal (.num k)], 2⟩ } := by
    intro k v hempty hstart
    have hoffset : (v.start : Int) = 2 * k := by omega
    rw [← hoffset]
    exact Redraws.pushStore v.start hempty [.num k] [.num k]
  have hstores := Redraws.flatMap_range hstore (fun k => rfl) (v := { start := 0, cur := ⟨0, []⟩ })
    rfl rfl locals
  simpa [loopStores] using hstores

/-- The head of the loop looks up the exit and then the body. -/
theorem redraws_loopHead (hlocals : 1 ≤ locals) (n : Nat) :
    Redraws (2 * locals)
      [instr .ldLocal [0], instr .push [0], instr (.binary .eq),
        instr .branch [2 * locals + 4 * n + 5, 2 * locals + 4]]
      { start := 2 * locals, cur := ⟨0, loopStores locals⟩ }
      { start := 2 * locals + 4
        done := [⟨0, loopStores locals ++
          [⟨2 * locals, .branch, [.block (2 * locals + 4 * n + 5), .block (2 * locals + 4)], 4⟩]⟩]
        cur := ⟨2 * locals + 4, []⟩
        ahead := [⟨2 * locals + 4 * n + 5, []⟩] } := by
  let v : View := { start := 2 * locals, sizes := [3], cur := ⟨0, loopStores locals⟩ }
  have hne : loopStores locals ≠ [] := by
    simp [loopStores]
    omega
  -- Both targets lie behind the stores, and the body lies in front of the exit.
  have hexit : v.Finds (2 * locals + 4 * n + 5)
      { v with ahead := [⟨2 * locals + 4 * n + 5, []⟩] } := by
    refine View.finds_behind (by omega) ?_ (by simp [v]) hne fun x hx => ?_
    · change (0 : Int) < _
      omega
    · have hlt := loopStores_offset_lt hx
      omega
  have hbody : View.Finds { v with ahead := [⟨2 * locals + 4 * n + 5, []⟩] } (2 * locals + 4)
      { v with ahead := [⟨2 * locals + 4, []⟩, ⟨2 * locals + 4 * n + 5, []⟩] } := by
    refine View.finds_behind (by omega) ?_ ?_ hne fun x hx => ?_
    · change (0 : Int) < _
      omega
    · intro d hd
      obtain rfl := List.mem_singleton.mp hd
      change 2 * (locals : Int) + 4 < 2 * locals + 4 * n + 5
      omega
    · have hlt := loopStores_offset_lt hx
      omega
  refine (Redraws.load _ _ _).cons <| (Redraws.push _ _ _).cons <|
    (Redraws.binary _ (by simp [View.fold]) _ _).cons <| Redraws.branch hexit hbody rfl ?_
  exact View.leaves_existing rfl (by simp; omega)

/-- An operation of the body. -/
def rotation (locals k : Nat) : List Instr :=
  [instr .ldLocal [(k : Int).fmod locals], instr .ldLocal [((k + 1 : Nat) : Int).fmod locals],
    instr (operatorAt k), instr .stLocal [((k + 2 : Nat) : Int).fmod locals]]

theorem redraws_loopBody (n locals : Nat) {v : View} (hempty : v.sizes = [])
    (hstart : v.start = 2 * locals + 4) :
    Redraws (2 * locals + 4) ((List.range n).flatMap (rotation locals)) v { v with
      start := 2 * locals + 4 + 4 * n
      cur := ⟨v.cur.offset, v.cur.lines ++ loopOperations n locals (2 * locals + 4)⟩ } := by
  have hline : ∀ k (v : View), v.sizes = [] → v.start = 2 * locals + 4 + 4 * k →
      Redraws v.start (rotation locals k) v { v with
        start := v.start + 4
        cur := v.cur.push ⟨2 * locals + 4 + 4 * (k : Int), .stLocal,
          [.literal (.num (((k + 2 : Nat) : Int).fmod locals))], 4⟩ } := by
    intro k v hempty hstart
    have hoffset : (2 * locals + 4 + 4 * k : Int) = v.start := by omega
    rw [hoffset]
    exact Redraws.loadsStore v.start hempty _ _ _ _
  exact Redraws.flatMap_range hline (fun k => rfl) hempty hstart n

/-- The jump back cuts the head off the stores. -/
theorem redraws_loopEnd (hlocals : 1 ≤ locals) (n : Nat) :
    Redraws (2 * locals + 4 + 4 * n) [instr .jmp [2 * locals]]
      { start := 2 * locals + 4 + 4 * n
        done := [⟨0, loopStores locals ++
          [⟨2 * locals, .branch, [.block (2 * locals + 4 * n + 5), .block (2 * locals + 4)], 4⟩]⟩]
        cur := ⟨2 * locals + 4, loopOperations n locals (2 * locals + 4)⟩
        ahead := [⟨2 * locals + 4 * n + 5, []⟩] }
      { start := 2 * locals + 4 + 4 * n + 1
        done := (loopDrafts n locals).take 3
        cur := ⟨2 * locals + 4 * n + 5, []⟩ } := by
  let v : View := {
    start := 2 * locals + 4 + 4 * n
    done := [⟨0, loopStores locals ++
      [⟨2 * locals, .branch, [.block (2 * locals + 4 * n + 5), .block (2 * locals + 4)], 4⟩]⟩]
    cur := ⟨2 * locals + 4, loopOperations n locals (2 * locals + 4)⟩
    ahead := [⟨2 * locals + 4 * n + 5, []⟩] }
  have hhead : v.Finds (2 * locals) { v with done := (loopDrafts n locals).take 2 } := by
    have hcut := View.finds_cut (v := v) (show v.done = [] ++ _ :: [] from rfl)
      (show (_ : Int) = 2 * locals from rfl) (by omega) ?_ ?_ rfl
      (fun x hx => loopStores_offset_lt hx)
    · rw [getLast?_loopStores hlocals] at hcut
      exact hcut
    · change (0 : Int) < 2 * locals
      omega
    · simp [v]
      omega
  have hplace : ((2 * locals + 4 + 4 * n : Nat) : Int) = 2 * locals + 4 * n + 4 := by omega
  refine Redraws.jmp hhead rfl ?_
  rw [View.finish, hplace]
  exact View.leaves_existing rfl (by simp; omega)

/-- The loop is left by two returns, of which the second is not reached. -/
theorem redraws_loopExit (i : Nat) (done : List Draft) :
    Redraws i [instr .ldLocal [0], instr .ret, instr .ldLocal [1]]
      { start := i, done, cur := ⟨i, []⟩ }
      { start := i + 2
        sizes := [1]
        done := done ++ [⟨i, [⟨i, .ret, [], 2⟩]⟩]
        cur := ⟨(i + 2 : Nat), []⟩ } := by
  have hret : Redraws (i + 1) [instr .ret] { start := i, sizes := [1], done, cur := ⟨i, []⟩ }
      { start := i + 2
        done := done ++ [⟨i, [⟨i, .ret, [], 2⟩]⟩]
        cur := ⟨(i + 2 : Nat), []⟩ } := by
    refine Redraws.ret rfl (View.leaves_of_finds (View.finds_behind (Int.natCast_nonneg _) ?_ ?_ ?_
      ?_) rfl rfl) _
    · simp only [View.finish, Draft.push, List.nil_append]
      omega
    · simp [View.finish]
    · simp [View.finish, Draft.push]
    · simp only [View.finish, Draft.push, List.nil_append, List.mem_singleton, forall_eq]
      omega
  exact (Redraws.load i _ _).cons (hret.cons (Redraws.load _ _ _))

theorem mapM_rotate (hlocals : 1 ≤ locals) (n : Nat) :
    (List.range n).mapM (rotate locals) = .ok ((List.range n).map (rotation locals)) := by
  have hne : (locals : Int) ≠ 0 := by omega
  have hrotate : rotate locals = fun k => pure (rotation locals k) := by
    funext k
    simp only [rotate, remainder, if_neg hne, ok_bind]
    rfl
  rw [hrotate, List.mapM_pure]
  rfl

/-- The instructions of the loop up to its last return. -/
def loopCode (n locals : Nat) : List Instr :=
  ((List.range locals).flatMap fun (k : Nat) => [instr .push [k], instr .stLocal [k]]) ++
    [instr .ldLocal [0], instr .push [0], instr (.binary .eq),
      instr .branch [2 * locals + 4 * n + 5, 2 * locals + 4]] ++
    (List.range n).flatMap (rotation locals) ++ [instr .jmp [2 * locals]] ++
    [instr .ldLocal [0], instr .ret, instr .ldLocal [1]]

theorem length_loopCode (n locals : Nat) :
    (loopCode n locals).length = 2 * locals + 4 * n + 8 := by
  simp [loopCode, rotation, List.length_flatMap]
  omega

theorem loopingBody_eq (hlocals : 1 ≤ locals) (n : Nat) :
    loopingBody n locals = .ok { locals, instrs := loopCode n locals ++ [instr .ret] } := by
  have hlength : (((List.range locals).flatMap fun (k : Nat) =>
      [instr .push [k], instr .stLocal [k]]).length : Int) = 2 * locals := by
    simp [List.length_flatMap]
    omega
  have hexit : (2 * locals + 4 + 4 * n + 1 : Int) = 2 * locals + 4 * n + 5 := by omega
  simp only [loopingBody, Int.toNat_natCast, mapM_rotate hlocals, ok_bind, hlength, hexit]
  simp [loopCode, List.flatMap_def]
  rfl

theorem redraws_loopCode (hlocals : 1 ≤ locals) (n : Nat) :
    Redraws 0 (loopCode n locals) { start := 0, cur := ⟨0, []⟩ }
      { start := 2 * locals + 4 * n + 7
        sizes := [1]
        done := (loopDrafts n locals).take 4
        cur := ⟨2 * locals + 4 * n + 7, []⟩ } := by
  have hexit := redraws_loopExit (2 * locals + 4 + 4 * n + 1) ((loopDrafts n locals).take 3)
  have hstart : ((2 * locals + 4 + 4 * n + 1 : Nat) : Int) = 2 * locals + 4 * n + 5 := by omega
  have hlast : ((2 * locals + 4 + 4 * n + 1 + 2 : Nat) : Int) = 2 * locals + 4 * n + 7 := by omega
  have hend : 2 * locals + 4 + 4 * n + 1 + 2 = 2 * locals + 4 * n + 7 := by omega
  rw [hstart, hlast, hend] at hexit
  rw [loopCode, List.append_assoc, List.append_assoc, List.append_assoc]
  exact (redraws_loopStores locals).append (by simp [List.length_flatMap]; omega) <|
    (redraws_loopHead hlocals n).append rfl <|
    (redraws_loopBody n locals rfl rfl).append (by simp [rotation, List.length_flatMap]; omega) <|
    (redraws_loopEnd hlocals n).append rfl hexit

/-! ## What the drafts say -/

theorem closed_loopDrafts (n locals : Nat) : ∀ d ∈ loopDrafts n locals, d.Closed := by
  intro d hd
  simp only [loopDrafts, List.mem_cons, List.not_mem_nil, or_false] at hd
  rcases hd with rfl | rfl | rfl | rfl | rfl
  · exact ⟨_, _, rfl, by simp⟩
  · exact ⟨[], _, rfl, by simp⟩
  · exact ⟨_, _, rfl, by simp⟩
  · exact ⟨[], _, rfl, by simp⟩
  · exact ⟨[], _, rfl, by simp⟩

theorem sum_size_loopDrafts (n locals : Nat) :
    ((loopDrafts n locals).map fun d => (d.lines.map Outline.size).sum).sum =
      2 * locals + 4 * n + 10 := by
  simp [loopDrafts, loopStores, loopOperations, Function.comp_def]
  omega

theorem targets_loopDrafts (n locals : Nat) :
    (loopDrafts n locals).map (fun d => (d.offset, d.targets)) =
      ([(0, [2 * locals]), (2 * locals, [2 * locals + 4 * n + 5, 2 * locals + 4]),
        (2 * locals + 4, [2 * locals]), (2 * locals + 4 * n + 5, []),
        (2 * locals + 4 * n + 7, [])] : List (Int × List Int)) := by
  simp [loopDrafts, Draft.targets, Mention.block?]

theorem sourcesAt_loopDrafts (hlocals : 1 ≤ locals) (n : Nat) :
    (loopDrafts n locals).map (fun d => sourcesAt (loopDrafts n locals) d.offset) =
      ([[], [0, 2 * locals + 4], [2 * locals], [2 * locals], []] : List (List Int)) := by
  have hsources : ∀ offset : Int, sourcesAt (loopDrafts n locals) offset =
      ((loopDrafts n locals).map fun d => (d.offset, d.targets)).flatMap
        fun x => (x.2.filter (· = offset)).map fun _ => x.1 := by
    intro offset
    rw [List.flatMap_map]
    rfl
  have hmap : (loopDrafts n locals).map (fun d => sourcesAt (loopDrafts n locals) d.offset) =
      ((loopDrafts n locals).map fun d => (d.offset, d.targets)).map
        fun x => sourcesAt (loopDrafts n locals) x.1 := by
    rw [List.map_map]
    rfl
  rw [hmap]
  simp only [hsources, targets_loopDrafts, List.map_cons, List.map_nil,
    List.flatMap_cons, List.flatMap_nil, List.filter_cons, List.filter_nil, decide_eq_true_eq]
  clear hsources hmap
  grind

/-- The loop is read, and its blocks are as they were drawn. -/
theorem exists_import_loopingBody (hlocals : 1 ≤ locals) (n : Nat) :
    ∃ p m, loopingBody n locals = .ok p ∧ p.import? = .ok m ∧
      (m.ir.blocks m.graph).map m.graph.draft = loopDrafts n locals ∧
      (m.ir.blocks m.graph).map (fun b =>
          (m.notes.block b).predecessors.map fun c => (m.graph.block c).offset) =
        ([[], [0, 2 * locals + 4], [2 * locals], [2 * locals], []] : List (List Int)) ∧
      m.ir.count = 2 * locals + 4 * n + 10 ∧ m.ir.count = p.instrs.length + 1 ∧
      ((m.ir.trees m.graph).map Tree.id).Nodup := by
  obtain ⟨s, hrun, hs⟩ := (redraws_loopCode hlocals n).run_ret rfl []
  have hdrafts : View.drafts (View.finish {
      start := 2 * locals + 4 * n + 7
      sizes := [1]
      done := (loopDrafts n locals).take 4
      cur := ⟨2 * locals + 4 * n + 7, []⟩ } (loopCode n locals).length .ret []) =
      loopDrafts n locals := by
    have hlast : ((2 * locals + 4 * n + 7 : Nat) : Int) = 2 * locals + 4 * n + 7 := by omega
    rw [View.finish, hlast]
    rfl
  obtain ⟨m, himport, hblocks, hsources, hcount, honce⟩ := Program.import?_of_draws
    (p := { locals, instrs := loopCode n locals ++ [instr .ret] }) hrun hs
    (hdrafts ▸ closed_loopDrafts n locals)
  rw [hdrafts] at hblocks hsources hcount
  rw [sourcesAt_loopDrafts hlocals] at hsources
  rw [sum_size_loopDrafts] at hcount
  refine ⟨_, m, loopingBody_eq hlocals n, himport, hblocks, hsources, hcount, ?_, honce⟩
  rw [hcount, List.length_append, length_loopCode, List.length_singleton]

end Samples

namespace Measure

/-- What is measured of a loop that is read into five blocks. -/
theorem run_loopShape {n : Int} {p : Program} {m : Imported} (hp : Samples.loopingBody n = .ok p)
    (hm : p.import? = .ok m) (runs : Nat) :
    loopShape.run n runs = .ok (List.replicate runs (.pair m.shape.1 m.shape.2)) := by
  have hsubjects : loopShape.subjects n = .ok [.source p { registers := 3 }] := by
    simp only [subjects, programs, hp, ok_bind]
    rfl
  have htake : ∀ settings, loopShape.take [.source p settings] =
      .ok (.pair m.shape.1 m.shape.2, [.source p settings]) := by
    intro settings
    have hprobe : loopShape.probe (.source p settings) = .ok (m.shape, .source p settings) := by
      simp only [probe, probeProgram, hm, ok_bind]
      rfl
    simp only [take, List.mapM_cons, List.mapM_nil, hprobe, ok_bind]
    simp [reading]
    rfl
  rw [run, hsubjects, ok_bind, takeMany_of_take (htake _)]

end Measure

/-- **The graph of the loop.**  For every length of the body and at least one variable, the loop is
read into the five blocks of `loopDrafts`.  The first holds the stores and a jump to the head, the
second, which is the head, only the branch.  Each tree is reached once, there is one for each
instruction and one for the jump that was put in, and the predecessors are those that a loop has.
Hence a measurement of the loop reads the same numbers each time. -/
theorem Samples.loopingBody_shape (n locals : Nat) (hlocals : 1 ≤ locals) :
    (∃ p m, loopingBody n locals = .ok p ∧ p.import? = .ok m ∧
      (m.ir.blocks m.graph).map m.graph.draft = loopDrafts n locals ∧
      (m.ir.blocks m.graph).map (fun b =>
          (m.notes.block b).predecessors.map fun c => (m.graph.block c).offset) =
        ([[], [0, 2 * locals + 4], [2 * locals], [2 * locals], []] : List (List Int)) ∧
      m.ir.count = 2 * locals + 4 * n + 10 ∧ m.ir.count = p.instrs.length + 1 ∧
      ((m.ir.trees m.graph).map Tree.id).Nodup) ∧
    ∀ runs, Measure.loopShape.run n runs = .ok (List.replicate runs (.pair (4 * n + 22) 5)) := by
  refine ⟨exists_import_loopingBody hlocals n, fun runs => ?_⟩
  obtain ⟨p, m, hp, hm, hdrafts, -, hcount, -⟩ :=
    exists_import_loopingBody (show 1 ≤ 6 by decide) n
  have hblocks : (m.ir.blocks m.graph).length = 5 := by
    rw [← List.length_map (f := m.graph.draft), hdrafts]
    rfl
  have hshape : m.shape = (4 * (n : Int) + 22, 5) := by
    rw [Imported.shape, hcount, hblocks]
    refine Prod.ext ?_ rfl
    change ((2 * 6 + 4 * n + 10 : Nat) : Int) = _
    omega
  rw [Measure.run_loopShape hp hm, hshape]

/-- A loop over two variables with three operations in its body. -/
theorem Samples.loopingBody_shape_three :
    1 ≤ 2 ∧
      (∃ p m, loopingBody 3 2 = .ok p ∧ p.import? = .ok m ∧ m.ir.count = 26 ∧
        (m.ir.blocks m.graph).map m.graph.draft = loopDrafts 3 2) ∧
      Measure.loopShape.run 3 2 = .ok [.pair 34 5, .pair 34 5] := by
  obtain ⟨⟨p, m, hp, hm, hdrafts, -, hcount, -⟩, hruns⟩ := loopingBody_shape 3 2 (by decide)
  exact ⟨by decide, ⟨p, m, hp, hm, hcount, hdrafts⟩, hruns 2⟩

end LinearScan
