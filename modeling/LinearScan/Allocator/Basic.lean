import LinearScan.Alike
import LinearScan.Position
import LinearScan.Render.Names

/-!
# The state of the register allocator

The allocator holds a file of registers, each empty or occupied by an interval,
and the list of active intervals.  An interval says itself in which register it
lives; the file, the list and the intervals are three records of the same
matter, and each step below says which of them it changes.

A step that stops with a fault leaves all that it changed before.
-/

namespace LinearScan

/-- The state of a register allocator. -/
structure Allocator where
  notes : Notes
  /-- The interval in each register. -/
  registers : List (Option IntervalId)
  /-- The intervals that live in registers, in the order in which they came. -/
  active : List IntervalId := []
  /-- The intervals of the local variables. -/
  slots : List IntervalId := []
  /-- The block that is scanned. -/
  block : Option BlockId := none
  /-- The tree that is scanned. -/
  tree : Option Tree := none
  /-- Whether a result may go into the register of an operand. -/
  reuse : Bool := true
  /-- The lines shown so far. -/
  log : Array String := #[]

/-- A step of the allocator. -/
abbrev Alloc := EStateM Fault Allocator

namespace Allocator

/-- An allocator with `size` empty registers. -/
def create (notes : Notes) (size : Int) (reuse : Bool) : Allocator :=
  { notes, registers := List.replicate size.toNat none, reuse }

/-- The interval with number `i`. -/
def interval (s : Allocator) (i : IntervalId) : Interval :=
  s.notes.interval i

/-- The numbers of the empty registers. -/
def freeRegisters (s : Allocator) : List Nat :=
  s.registers.zipIdx.filterMap fun r => if r.1.isNone then some r.2 else none

/-- The interval of the local variable that the first operand of `t` names. -/
def slotOf (s : Allocator) (t : Tree) : Except Fault IntervalId :=
  match s.notes.operands t with
  | [] => .error .outOfRange
  | o :: _ => do
      let k ← Position.resolve s.slots.length (← o.position)
      match s.slots[k]? with
      | some i => .ok i
      | none => .error .outOfRange

end Allocator

namespace Alloc

/-- A result that does not depend on later steps, as a step. -/
def ofExcept {α : Type} : Except Fault α → Alloc α
  | .ok a => pure a
  | .error fault => throw fault

/-- Change the notes. -/
def modifyNotes (f : Notes → Notes) : Alloc Unit :=
  modify fun s => { s with notes := f s.notes }

/-- Show a line. -/
def emit (line : String) : Alloc Unit :=
  modify fun s => { s with log := s.log.push line }

/-- The interval with number `i`. -/
def interval (i : IntervalId) : Alloc Interval :=
  return (← get).interval i

/-- Say in which register the interval `i` lives. -/
def setLiveIn (i : IntervalId) (reg : Option Int) : Alloc Unit :=
  modifyNotes fun n => n.modifyInterval i fun iv => { iv with liveIn := reg }

/-- The interval that occupies a register. -/
def occupant (reg : Option Int) : Alloc (Option IntervalId) := do
  let s ← get
  let k ← ofExcept (Position.resolve? s.registers.length reg)
  return (s.registers[k]?).join

/-- Let a register be occupied by `content`. -/
def occupy (reg : Option Int) (content : Option IntervalId) : Alloc Unit := do
  let s ← get
  let k ← ofExcept (Position.resolve? s.registers.length reg)
  set { s with registers := s.registers.set k content }

/-- Put an interval at the end of the active list. -/
def pushActive (i : IntervalId) : Alloc Unit :=
  modify fun s => { s with active := s.active ++ [i] }

/-- Take the first interval that is like `i` off the active list. -/
def dropActive (g : Graph) (i : IntervalId) : Alloc Unit := do
  let s ← get
  let rest ← ofExcept (removeAlike g s.notes i s.active)
  set { s with active := rest }

/-- Give the tree `t` another register. -/
def setReg (t : Tree) (reg : Int) : Alloc Unit :=
  modifyNotes fun n => n.modifyTree t fun note => { note with reg }

/-- Record a spill at the tree `t`. -/
def recordSpill (t : Tree) (spill : Spill) : Alloc Unit :=
  modifyNotes fun n => n.addSpill t spill

/-- Record a restore at the tree `t`. -/
def recordRestore (t : Tree) (restore : Restore) : Alloc Unit :=
  modifyNotes fun n => n.addRestore t restore

/-! ## What the primitive steps do -/

theorem setLiveIn_apply (i : IntervalId) (reg : Option Int) (s : Allocator) :
    setLiveIn i reg s =
      .ok () { s with notes := s.notes.modifyInterval i fun iv => { iv with liveIn := reg } } :=
  rfl

theorem pushActive_apply (i : IntervalId) (s : Allocator) :
    pushActive i s = .ok () { s with active := s.active ++ [i] } :=
  rfl

theorem get_bind_apply (f : Allocator → Alloc Unit) (s : Allocator) : (get >>= f) s = f s s :=
  rfl

theorem occupy_apply (reg : Option Int) (content : Option IntervalId) (s : Allocator) :
    occupy reg content s =
      match Position.resolve? s.registers.length reg with
      | .ok k => .ok () { s with registers := s.registers.set k content }
      | .error fault => .error fault s := by
  rw [occupy, get_bind_apply]
  cases Position.resolve? s.registers.length reg <;> rfl

theorem dropActive_apply (g : Graph) (i : IntervalId) (s : Allocator) :
    dropActive g i s =
      match removeAlike g s.notes i s.active with
      | .ok rest => .ok () { s with active := rest }
      | .error fault => .error fault s := by
  rw [dropActive, get_bind_apply]
  cases removeAlike g s.notes i s.active <;> rfl

end Alloc
end LinearScan
