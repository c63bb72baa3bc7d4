import LinearScan.Graph.Basic

/-!
# Blocks by offset

A jump names the offset of an instruction.  `Graph.blockAt` gives the block that
starts there, and makes one if there is none: an empty block behind the one in
whose range the offset lies, or the rear part of that block, which is then cut
in two.

The search (`Graph.locate`) is kept apart from the change, so that a search that
ends in a fault cannot have changed anything.
-/

namespace LinearScan

/-- Where an offset lies in a chain of blocks. -/
inductive Landing where
  /-- The block `b` starts there. -/
  | existing (b : BlockId)
  /-- It lies behind all statements of `b`. -/
  | behind (b : BlockId)
  /-- The statement `s` of `b` starts there. -/
  | within (b : BlockId) (s : StmtId)
deriving DecidableEq, Repr

namespace Graph

/-- The block of the chain `b :: rest` in whose range an offset lies: the chain
is followed as long as the next block does not start behind the offset. -/
def landing (g : Graph) (offset : Int) : BlockId → List BlockId → BlockId
  | b, [] => b
  | b, c :: rest =>
      if (g.block b).offset < offset ∧ (g.block c).offset ≤ offset then
        g.landing offset c rest
      else
        b

/-- Where `offset` lies in the chain of blocks that starts with `first`. -/
def locate (g : Graph) (first : BlockId) (offset : Int) : Except Fault Landing :=
  let b := g.landing offset first (g.blocksFrom first).tail
  if (g.block b).offset = offset then
    .ok (.existing b)
  else if (g.block b).first = none then
    .error .emptyBlock
  else
    match (g.stmtsOf b).dropWhile fun s => (g.stmt s).offset < offset with
    | [] => .ok (.behind b)
    | s :: _ =>
        if offset < (g.stmt s).offset then .error .betweenStatements
        else .ok (.within b s)

/-- Chain an empty block in behind `b`, under the number `g.blockCount`. -/
def insertBehind (g : Graph) (b : BlockId) (offset : Int) : Graph :=
  let new := g.blockCount
  let blk := g.block b
  let g := g.addBlock { offset, next := blk.next, prev := blk.prev }
  let g := g.modifyBlock b fun blk => { blk with next := some new }
  g.modifyBlock? blk.next fun blk => { blk with prev := some new }

/-- Cut `b` in two at its statement `s`.  The rear part becomes the block
`g.blockCount`; in the front part a jump to it takes the place of the last
statement. -/
def split (g : Graph) (b : BlockId) (s : StmtId) (offset : Int) : Graph :=
  let new := g.blockCount
  let jump := g.stmtCount
  let blk := g.block b
  let before := blk.last.bind fun l => (g.stmt l).prev
  let jumpOffset :=
    match before with
    | some p => (g.stmt p).offset
    | none => blk.offset
  let g := g.insertBehind b offset
  let g := g.modifyBlock new fun rear => { rear with first := some s, last := blk.last }
  let (edge, g) := g.newEdge new
  let (tree, g) := g.newTree .jmp [edge] b []
  let g := g.addStmt { offset := jumpOffset, prev := before, tree }
  let g := g.modifyStmt? before fun st => { st with next := some jump }
  let g := g.modifyBlock b fun front =>
    { front with
      first := if front.last = front.first then some jump else front.first
      last := some jump }
  g.modifyStmt s fun st => { st with prev := none }

/-- The block that starts at `offset` in the chain of blocks that starts with
`first`, made if there is none. -/
def blockAt (first : BlockId) (offset : Int) : EStateM Fault Graph BlockId := do
  let g ← get
  match g.locate first offset with
  | .error fault => throw fault
  | .ok (.existing b) => return b
  | .ok (.behind b) =>
      set (g.insertBehind b offset)
      return g.blockCount
  | .ok (.within b s) =>
      set (g.split b s offset)
      return g.blockCount

/-- What a look-up does, by where its offset lies. -/
theorem blockAt_apply (first : BlockId) (offset : Int) (g : Graph) :
    blockAt first offset g =
      match g.locate first offset with
      | .error fault => .error fault g
      | .ok (.existing b) => .ok b g
      | .ok (.behind b) => .ok g.blockCount (g.insertBehind b offset)
      | .ok (.within b s) => .ok g.blockCount (g.split b s offset) := by
  have hget : ∀ f, (get >>= f : EStateM Fault Graph BlockId) g = f g g := fun _ => rfl
  rw [blockAt, hget]
  cases g.locate first offset with
  | error fault => rfl
  | ok place => cases place <;> rfl

/-- A look-up that stops with a fault has changed nothing. -/
theorem eq_of_blockAt_error
    {first : BlockId} {offset : Int} {g g' : Graph} {fault : Fault}
    (h : blockAt first offset g = .error fault g') :
    g' = g := by
  rw [blockAt_apply] at h
  split at h <;> simp_all

end Graph
end LinearScan
