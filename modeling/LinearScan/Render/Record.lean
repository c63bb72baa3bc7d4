import LinearScan.Record
import LinearScan.Render.Quoted

/-!
# Records in full

The text of an entity is its record with the records of all it refers to, and so
on.  Where the text comes back to an entity that it is still showing, three dots
stand for that entity, so that the text ends although records refer to each other
in circles.
-/

namespace LinearScan

/-- The text of a kind of tree in a record, with its number among the kinds. -/
def TreeKind.labelText (k : TreeKind) : String :=
  "<TreeKind." ++ k.name ++ ": " ++ toString (k.ctorIdx + 1) ++ ">"

/-- The text of an operator in a record, with its number among the operators. -/
def Operator.labelText (op : Operator) : String :=
  "<Operator." ++ op.name ++ ": " ++ toString (op.ctorIdx + 1) ++ ">"

namespace Part

mutual

/-- The text of a part, where `deep` gives the text of what it refers to. -/
def render (deep : Entity → String) : Part → String
  | .nothing => "None"
  | .flag b => if b then "True" else "False"
  | .num n => toString n
  | .text s => quoted s
  | .kind k => k.labelText
  | .operator op => op.labelText
  | .ref e => deep e
  | .list ps => "[" ++ ", ".intercalate (renderAll deep ps) ++ "]"
  | .record name fs => name ++ "(" ++ ", ".intercalate (renderFields deep fs) ++ ")"

/-- The texts of several parts. -/
def renderAll (deep : Entity → String) : List Part → List String
  | [] => []
  | p :: ps => p.render deep :: renderAll deep ps

/-- The texts of labelled parts. -/
def renderFields (deep : Entity → String) : List (String × Part) → List String
  | [] => []
  | (label, p) :: fs => (label ++ "=" ++ p.render deep) :: renderFields deep fs

end

end Part

namespace Entity

/-- What stands for an entity inside its own text. -/
def dots : Entity → String
  | .crossings _ => "[...]"
  | _ => "..."

/-- The text of an entity inside the texts of the entities in `pending`, at most
`fuel` entities deep. -/
def renderFrom (g : Graph) (n : Notes) : Nat → List Entity → Entity → String
  | 0, _, e => e.dots
  | fuel + 1, pending, e =>
      if pending.any e.same then
        e.dots
      else
        (e.record g n).render (renderFrom g n fuel (e :: pending))

/-- The text of an entity.  No entity is shown inside itself, so that the text is at
most as many entities deep as there are entities. -/
def render (g : Graph) (n : Notes) (e : Entity) : String :=
  renderFrom g n (count g n + 1) [] e

end Entity
end LinearScan
