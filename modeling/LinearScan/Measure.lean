import LinearScan.Compile
import LinearScan.Render.Assembly
import LinearScan.Render.Dump
import LinearScan.Samples

/-!
# Measurements on the sample programs

A measurement reads one or two numbers off sample programs.  It can be taken again
and again on the same programs.  A program that is compiled is read in each time, and
each time its stores show one register more, which no reading depends on.  Listings are
of a program that is compiled once, before the first measurement is taken.
-/

namespace LinearScan

/-- What a measurement reads. -/
inductive Reading where
  | single (n : Int)
  | pair (m n : Int)
deriving DecidableEq, Repr

/-- Something to measure on sample programs of a given size. -/
inductive Measure where
  /-- The number of trees of a chain of operations. -/
  | chainSize
  /-- The numbers of trees and of blocks of a loop. -/
  | loopShape
  /-- The sum of the registers and the number of variables of a chain. -/
  | chainRegisters
  /-- The number of trees of a loop and what happens on its edges. -/
  | loopTraffic
  /-- The spills and restores of nested expressions. -/
  | spillTraffic
  /-- The number of trees of several loops. -/
  | fibonacciSize
  /-- The number of trees in the listings of a chain. -/
  | chainListing
  /-- The number of trees in the listings of a loop. -/
  | loopListing
deriving DecidableEq, Repr

/-- What a measurement is taken on. -/
inductive Subject where
  /-- A program that is read in each time, for an allocator with the settings. -/
  | source (p : Program) (settings : Settings)
  /-- A program that was compiled before. -/
  | code (c : Compiled)

namespace Imported

/-- The numbers of trees and of blocks. -/
def shape (i : Imported) : Int × Int :=
  (i.ir.count, (i.ir.blocks i.graph).length)

end Imported

namespace Compiled

/-- The trees of a compiled program in execution order. -/
def trees (c : Compiled) : List Tree :=
  c.ir.trees c.graph

/-- The sum of the registers of all trees. -/
def registerSum (c : Compiled) : Int :=
  (c.trees.map c.alloc.notes.reg).foldr (· + ·) 0

/-- How many spills and restores the trees have. -/
def treeTraffic (c : Compiled) : Nat :=
  (c.trees.map fun t =>
    let note := c.alloc.notes.tree t
    note.spills.length + note.restores.length).foldr (· + ·) 0

/-- How many edges leave the blocks, and how many spills, moves and restores are on them. -/
def edgeTraffic (c : Compiled) : Except Fault Nat :=
  let count : EStateM Fault Nat Unit :=
    (c.ir.blocks c.graph).forM fun b => Ir.eachExit c.graph c.alloc.notes b fun e _ =>
      let note := c.alloc.notes.edge e
      modify (· + 1 + note.spills.length + note.moves.length + note.restores.length)
  match count 0 with
  | .ok _ total => .ok total
  | .error fault _ => .error fault

/-- The lines of both listings, of the intermediate code and of the assembly code. -/
def listings (c : Compiled) : Except Fault (List String) :=
  match c.ir.assemble c.graph c.alloc.notes #[] with
  | .ok _ code => .ok (c.ir.dump c.graph c.alloc.notes ++
      code.toList.map (AsmLine.render c.graph c.alloc.notes))
  | .error fault _ => .error fault

end Compiled

namespace Measure

/-- The size that is measured if none is asked for. -/
def defaultSize : Measure → Int
  | chainSize => 400
  | loopShape => 300
  | chainRegisters | spillTraffic => 200
  | loopTraffic | chainListing => 150
  | fibonacciSize => 40
  | loopListing => 120

/-- The programs that are measured, each for an allocator with the settings. -/
def programs (m : Measure) (size : Int) : Except Fault (List (Program × Settings)) :=
  match m with
  | chainSize | chainRegisters => do
      return [(← Samples.arithChain size, { registers := 3 })]
  | chainListing => do return [(← Samples.arithChain size 6, {})]
  | loopShape | loopTraffic => do return [(← Samples.loopingBody size, { registers := 3 })]
  | loopListing => do return [(← Samples.loopingBody size, {})]
  | spillTraffic => .ok [(Samples.spillChain size, { registers := 3 })]
  | fibonacciSize => .ok ((List.range size.toNat).map fun (k : Nat) =>
      (Samples.fibonacci (10 + k), { reuse := k % 2 = 0 }))

/-- Compile a program; a fault of the scan is a fault. -/
def compiled (p : Program) (settings : Settings) : Except Fault Compiled := do
  let c ← p.compile settings
  match c.fault with
  | some fault => throw fault
  | none => return c

/-- What is measured at a given size. -/
def subjects (m : Measure) (size : Int) : Except Fault (List Subject) := do
  (← m.programs size).mapM fun (p, settings) =>
    match m with
    | chainListing | loopListing => Subject.code <$> compiled p settings
    | _ => .ok (.source p settings)

/-- The two numbers that a measurement reads off a program, and the program as that
left it.  Sizes need no registers, so the program is only read. -/
def probeProgram (m : Measure) (p : Program) (settings : Settings) :
    Except Fault ((Int × Int) × Program) :=
  match m with
  | chainSize | loopShape | chainListing | loopListing => do
      return ((← p.import?).shape, p)
  | chainRegisters => do
      let c ← compiled p settings
      return ((c.registerSum, c.alloc.slots.length), c.program)
  | loopTraffic | fibonacciSize => do
      let c ← compiled p settings
      return ((c.ir.count, ← c.edgeTraffic), c.program)
  | spillTraffic => do
      let c ← compiled p settings
      return ((c.treeTraffic, 0), c.program)

/-- The two numbers that a measurement reads off one subject, and the subject as that
left it.  What was compiled before is listed. -/
def probe (m : Measure) : Subject → Except Fault ((Int × Int) × Subject)
  | .source p settings => do
      let (numbers, p) ← m.probeProgram p settings
      return (numbers, .source p settings)
  | .code c => do
      let _ ← c.listings
      return ((c.ir.count, 0), .code c)

/-- A reading, from the numbers read off the programs. -/
def reading (m : Measure) (numbers : List (Int × Int)) : Reading :=
  let first := (numbers.map (·.1)).foldr (· + ·) 0
  let second := (numbers.map (·.2)).foldr (· + ·) 0
  match m with
  | loopShape | chainRegisters | loopTraffic => .pair first second
  | _ => .single first

/-- Take a measurement once; the subjects come back as that left them. -/
def take (m : Measure) (subjects : List Subject) : Except Fault (Reading × List Subject) := do
  let probes ← subjects.mapM m.probe
  return (m.reading (probes.map (·.1)), probes.map (·.2))

/-- Take a measurement several times. -/
def takeMany (m : Measure) : Nat → List Subject → Except Fault (List Reading)
  | 0, _ => .ok []
  | k + 1, subjects => do
      let (r, subjects) ← m.take subjects
      return r :: (← m.takeMany k subjects)

/-- A measurement that leaves its subjects as they are reads the same each time. -/
theorem takeMany_of_take {m : Measure} {subjects : List Subject} {r : Reading}
    (h : m.take subjects = .ok (r, subjects)) (runs : Nat) :
    m.takeMany runs subjects = .ok (List.replicate runs r) := by
  induction runs with
  | zero => rfl
  | succ runs ih =>
      simp only [takeMany, h, ih, bind, Except.bind]
      rfl

/-- Take a measurement at the given size, `runs` times. -/
def run (m : Measure) (size : Int) (runs : Nat) : Except Fault (List Reading) := do
  m.takeMany runs (← m.subjects size)

end Measure
end LinearScan
