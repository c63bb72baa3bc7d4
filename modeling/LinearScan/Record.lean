import LinearScan.Graph.Basic
import LinearScan.Notes

/-!
# Records

What is known about a tree, a statement, a block or an interval, as a record of
labelled parts in a fixed order.  Parts refer to other trees, blocks and so on, and
they do so in circles: a tree knows its parent, whose subtrees include the tree.
A record is therefore only one layer deep, and its parts name what they refer to.

Comparing and showing are both done record by record.
-/

namespace LinearScan

/-- What a part of a record can refer to. -/
inductive Entity where
  | tree (t : Tree)
  | stmt (s : StmtId)
  | block (b : BlockId)
  | interval (i : IntervalId)
  | crossings (c : Crossings)

/-- Whether two entities are one and the same. -/
def Entity.same : Entity → Entity → Bool
  | .tree t, .tree u => t.id == u.id
  | .stmt s, .stmt r => s == r
  | .block b, .block c => b == c
  | .interval i, .interval j => i == j
  | .crossings c, .crossings d => c.id == d.id
  | _, _ => false

/-- A part of what is known about an entity. -/
inductive Part where
  | nothing
  | flag (b : Bool)
  | num (n : Int)
  | text (s : String)
  | kind (k : TreeKind)
  | operator (op : Operator)
  | ref (e : Entity)
  | list (parts : List Part)
  | record (name : String) (fields : List (String × Part))

namespace Part

/-- The part for something that may be absent. -/
def ofOption {α : Type} (f : α → Part) : Option α → Part
  | some a => f a
  | none => .nothing

/-- The part for a number that may be absent. -/
def ofReg (r : Option Int) : Part :=
  ofOption num r

/-- The part for a tree. -/
def ofTree (t : Tree) : Part :=
  .ref (.tree t)

/-- The part for an interval. -/
def ofInterval (i : IntervalId) : Part :=
  .ref (.interval i)

/-- The part for a spill. -/
def ofSpill (s : Spill) : Part :=
  .record "RegSpill" [("reg", ofReg s.reg), ("interval", ofInterval s.interval)]

/-- The part for a restore. -/
def ofRestore (r : Restore) : Part :=
  .record "RegRestore" [("reg", ofReg r.reg), ("interval", ofInterval r.interval)]

/-- The part for a move. -/
def ofMove (m : Move) : Part :=
  .record "RegMove"
    [("reg_from", ofReg m.source), ("reg_to", ofReg m.target),
      ("interval", ofInterval m.interval)]

/-- The part for an interval that crosses into or out of a block. -/
def ofCrossing (c : Crossing) : Part :=
  .record "CBActiveInterval" [("reg", ofReg c.reg), ("interval", ofInterval c.interval)]

/-- The part for an operand. -/
def ofOperand (n : Notes) : Operand → Part
  | .literal (.num k) => .num k
  | .literal (.text s) => .text s
  | .operator op => .operator op
  | .edge e target =>
      let note := n.edge e
      .record "BlockEdge"
        [("target", .ref (.block target)), ("spills", .list (note.spills.map ofSpill)),
          ("moves", .list (note.moves.map ofMove)),
          ("restores", .list (note.restores.map ofRestore))]

/-- The part for whose value an interval is about. -/
def ofOwner : Owner → Part
  | .slot k => .num k
  | .temp t => ofTree t

/-- The part for the place of a tree in the life of the interval `i`.  A place is
never on the boundary of a block. -/
def ofPlace (name : String) (i : IntervalId) (t : Tree) : Part :=
  .record name
    [("belongs_to", ofInterval i), ("used_in", ofTree t), ("on_block_boundary", .flag false)]

end Part

namespace Entity

/-- All that is known about an entity. -/
def record (g : Graph) (n : Notes) : Entity → Part
  | .tree t =>
      let note := n.tree t
      .record "Tree"
        [("kind", .kind t.kind), ("subtrees", .list (t.subtrees.map Part.ofTree)),
          ("operands", .list ((n.operands t).map (Part.ofOperand n))),
          ("parent", Part.ofOption Part.ofTree (g.parent t)), ("block", .ref (.block t.block)),
          ("ir_idx", .num note.index), ("reg", .num note.reg),
          ("spills", .list (note.spills.map Part.ofSpill)),
          ("restores", .list (note.restores.map Part.ofRestore))]
  | .stmt s =>
      let st := g.stmt s
      .record "Statement"
        [("il_idx", .num st.offset),
          ("next_statement", Part.ofOption (.ref ∘ .stmt) st.next),
          ("prev_statement", Part.ofOption (.ref ∘ .stmt) st.prev),
          ("tree", Part.ofTree st.tree)]
  | .block b =>
      let blk := g.block b
      let note := n.block b
      .record "BasicBlock"
        [("il_idx", .num blk.offset),
          ("next_block", Part.ofOption (.ref ∘ .block) blk.next),
          ("prev_block", Part.ofOption (.ref ∘ .block) blk.prev),
          ("first_statemenent", Part.ofOption (.ref ∘ .stmt) blk.first),
          ("last_statement", Part.ofOption (.ref ∘ .stmt) blk.last),
          ("predecessors", .list (note.predecessors.map (.ref ∘ .block))),
          ("active_in", Part.ofOption (.ref ∘ .crossings) note.entry),
          ("active_out", Part.ofOption (.ref ∘ .crossings) note.exit)]
  | .interval i =>
      let iv := n.interval i
      .record "Interval"
        [("of", Part.ofOwner iv.owner),
          ("use_positions", .list (iv.uses.map (Part.ofPlace "UsePos" i))),
          ("write_positions", .list (iv.writes.map (Part.ofPlace "WritePos" i))),
          ("live_range", .record "LiveRange"
            [("first_write_at", .num iv.firstWrite), ("last_read_at", .num iv.lastRead)]),
          ("live_in", Part.ofReg iv.liveIn)]
  | .crossings c => .list (c.members.map Part.ofCrossing)

/-- How many entities there are. -/
def count (g : Graph) (n : Notes) : Nat :=
  g.treeCount + g.stmtCount + g.blockCount + n.intervalCount + n.crossingsCount

end Entity
end LinearScan
