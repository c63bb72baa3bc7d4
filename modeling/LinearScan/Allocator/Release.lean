import LinearScan.Allocator.Basic

/-!
# Releasing registers

Before a tree is scanned, the registers of the intervals that are no longer
needed become empty.  An interval is no longer needed when its last read has
passed, and also when, within the block that is scanned, it will be written
before it is next read.  If results may go into the registers of operands, an
interval is already over at its last read.
-/

namespace LinearScan

/-- Whether, at index `pos`, the active interval `i` is no longer needed. -/
def Allocator.expired (s : Allocator) (pos : Nat) (i : IntervalId) : Bool :=
  let iv := s.interval i
  iv.lastRead < pos || (s.reuse && iv.lastRead == pos) ||
    match s.notes.nextUse i pos, s.notes.nextWrite i pos with
    | some use, some write =>
        some use.block == s.block && s.notes.index write < s.notes.index use
    | _, _ => false

namespace Alloc

/-- Empty the register of an interval. -/
def vacate (i : IntervalId) : Alloc Unit := do
  occupy (← interval i).liveIn none
  setLiveIn i none

/-- Empty the registers of those intervals that are no longer needed at index
`pos`; the result is the list of the others. -/
def releaseEach (pos : Nat) : List IntervalId → Alloc (List IntervalId)
  | [] => pure []
  | i :: rest => do
      if (← get).expired pos i then
        vacate i
        releaseEach pos rest
      else
        return i :: (← releaseEach pos rest)

/-- Empty the registers that are no longer needed at the tree `t`. -/
def release (t : Tree) : Alloc Unit := do
  let s ← get
  let kept ← releaseEach (s.notes.index t) s.active
  modify fun s => { s with active := kept }

end Alloc
end LinearScan
