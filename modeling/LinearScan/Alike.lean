import LinearScan.Record

/-!
# Structural comparison

Two trees, statements, blocks or intervals are alike when they are the same one
or when their records are alike, part by part and in order.

A comparison stops at the first part that differs.  If before that it comes back
to a pair that it is still comparing, it has no answer and is circular.
-/

namespace LinearScan

/-- The outcome of a comparison. -/
inductive Verdict where
  | alike
  | different
  | circular
deriving DecidableEq, Repr

namespace Part

mutual

/-- Compare two parts, where `deep` compares what they refer to. -/
def compare (deep : Entity → Entity → Verdict) : Part → Part → Verdict
  | .nothing, .nothing => .alike
  | .flag a, .flag b => if a = b then .alike else .different
  | .num m, .num n => if m = n then .alike else .different
  | .text s, .text r => if s = r then .alike else .different
  | .kind k, .kind l => if k = l then .alike else .different
  | .operator o, .operator p => if o = p then .alike else .different
  | .ref a, .ref b => deep a b
  | .list ps, .list qs =>
      if ps.length = qs.length then compareAll deep ps qs else .different
  | .record name fs, .record other gs =>
      if name = other then compareFields deep fs gs else .different
  | _, _ => .different

/-- Compare lists of parts up to the first pair that is not alike. -/
def compareAll (deep : Entity → Entity → Verdict) : List Part → List Part → Verdict
  | p :: ps, q :: qs =>
      match p.compare deep q with
      | .alike => compareAll deep ps qs
      | verdict => verdict
  | _, _ => .alike

/-- Compare the parts of two records of one name, which have the same labels. -/
def compareFields (deep : Entity → Entity → Verdict) :
    List (String × Part) → List (String × Part) → Verdict
  | (_, p) :: fs, (_, q) :: gs =>
      match p.compare deep q with
      | .alike => compareFields deep fs gs
      | verdict => verdict
  | _, _ => .alike

end

end Part

namespace Entity

/-- Compare two entities while the pairs in `pending` are being compared, at
most `fuel` pairs deep. -/
def compareFrom (g : Graph) (n : Notes) :
    Nat → List (Entity × Entity) → Entity → Entity → Verdict
  | 0, _, _, _ => .circular
  | fuel + 1, pending, a, b =>
      if a.same b then
        .alike
      else if pending.any fun p => p.1.same a && p.2.same b then
        .circular
      else
        (a.record g n).compare (compareFrom g n fuel ((a, b) :: pending)) (b.record g n)

/-- Compare two entities.  A comparison is at most as many pairs deep as there
are pairs. -/
def compare (g : Graph) (n : Notes) (a b : Entity) : Verdict :=
  compareFrom g n (count g n * count g n + 1) [] a b

end Entity

/-- Whether two entities are alike. -/
def alike (g : Graph) (n : Notes) (a b : Entity) : Except Fault Bool :=
  match a.compare g n b with
  | .alike => .ok true
  | .different => .ok false
  | .circular => .error .circular

/-- Take the first interval that is like `i` off a list. -/
def removeAlike (g : Graph) (n : Notes) (i : IntervalId) :
    List IntervalId → Except Fault (List IntervalId)
  | [] => .error .notListed
  | j :: rest => do
      if ← alike g n (.interval j) (.interval i) then
        return rest
      else
        return j :: (← removeAlike g n i rest)

/-- Whether one of the restores is of an interval that is like `i`. -/
def restoresAlike (g : Graph) (n : Notes) (i : IntervalId) :
    List Restore → Except Fault Bool
  | [] => .ok false
  | r :: rest => do
      if ← alike g n (.interval r.interval) (.interval i) then
        return true
      else
        restoresAlike g n i rest

end LinearScan
