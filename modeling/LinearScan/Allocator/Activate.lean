import LinearScan.Allocator.Basic

/-!
# Giving an interval a register

An interval goes into an empty register if there is one.  Otherwise an active
interval is spilled: one without a later use, or else the one whose next use is
furthest away, provided that it lies behind the next use of the interval that
needs the register.
-/

namespace LinearScan
namespace Allocator

/-- The register that is filled when `number` is the first empty one and
`others` are the rest.  A register of an operand of the tree `use`, where the
interval is used next, is preferred to `number`. -/
def preferred (s : Allocator) (use : Tree) (number : Nat) (others : List Nat) : Nat :=
  (others.find? fun (k : Nat) => use.subtrees.any fun t => s.notes.reg t == k).getD number

/-- The first empty register, and the one that is filled, for the interval `i`
at index `pos`. -/
def choose (s : Allocator) (pos : Nat) (i : IntervalId) : Except Fault (Option (Nat × Nat)) :=
  match s.freeRegisters with
  | [] => .ok none
  | [number] => .ok (some (number, number))
  | number :: others =>
      match s.notes.nextUse i pos with
      | some use => .ok (some (number, s.preferred use number others))
      | none => .error .noNextUse

/-- The interval to spill, out of a list, at index `pos`.  Intervals that are
used at index `limit` or before are kept; `best` is the candidate so far, with
the index of its next use. -/
def victim (s : Allocator) (pos limit : Nat) :
    Option (IntervalId × Nat) → List IntervalId → Option IntervalId
  | best, [] => best.map (·.1)
  | best, i :: rest =>
      match s.notes.nextUse i pos with
      | none => some i
      | some use =>
          let k := s.notes.index use
          if k ≤ limit then
            s.victim pos limit best rest
          else
            match best with
            | none => s.victim pos limit (some (i, k)) rest
            | some (j, m) =>
                if m < k then s.victim pos limit (some (i, k)) rest
                else s.victim pos limit (some (j, m)) rest

/-- The fault that there is nothing to spill at index `pos`. -/
def noVictim (s : Allocator) (pos : Nat) : Fault :=
  .noVictim pos
    (s.registers.map fun
      | some i => s.notes.name i
      | none => "None")
    (s.active.map s.notes.name)

end Allocator

namespace Alloc

/-- Record at the tree `t` that `i` is restored into `reg`, unless `t` is the
tree that produces the value or already restores it. -/
def recordReload (g : Graph) (t : Tree) (i : IntervalId) (reg : Nat) : Alloc Unit := do
  let s ← get
  if !(s.interval i).owner.isResultOf t then
    if !(← ofExcept (restoresAlike g s.notes i (s.notes.tree t).restores)) then
      recordRestore t { reg := some reg, interval := i }

/-- Put an interval into an empty register, if there is one. -/
def tryActivate (g : Graph) (t : Tree) (i : IntervalId) : Alloc Bool := do
  let s ← get
  match ← ofExcept (s.choose (s.notes.index t) i) with
  | none => return false
  | some (number, filled) =>
      recordReload g t i number
      setLiveIn i (some number)
      occupy (some filled) (some i)
      pushActive i
      return true

/-- Spill an interval at the tree `t`; the result is the register that becomes
empty.  A temporary is to be restored where it is used next, into a register
that is found then. -/
def spill (g : Graph) (t : Tree) (i : IntervalId) : Alloc Int := do
  let s ← get
  match (s.interval i).liveIn with
  | none => throw .inactiveSpill
  | some reg =>
      recordSpill t { reg := some reg, interval := i }
      if (s.interval i).owner.isTemp then
        match s.notes.nextUse i (s.notes.index t) with
        | none => throw .noNextUse
        | some use => recordRestore use { reg := some (-1), interval := i }
      setLiveIn i none
      dropActive g i
      occupy (some reg) none
      return reg

/-- Spill an active interval at the tree `t` and put `i` into its register. -/
def evictFor (g : Graph) (t : Tree) (i : IntervalId) : Alloc Unit := do
  let s ← get
  let pos := s.notes.index t
  match s.notes.nextUse i pos with
  | none => throw .uselessActivation
  | some use =>
      match s.victim pos (s.notes.index use) none s.active with
      | none => throw (s.noVictim pos)
      | some v =>
          let reg ← spill g t v
          setLiveIn i (some reg)
          occupy (some reg) (some i)
          pushActive i

/-- See to it that an interval is in a register at the tree `t`. -/
def activate (g : Graph) (t : Tree) (i : IntervalId) : Alloc Unit := do
  if (← interval i).liveIn.isNone then
    if !(← tryActivate g t i) then
      evictFor g t i

end Alloc
end LinearScan
