import LinearScan.Fault

/-!
# Positions in a list

A position is an integer.  Positions from zero on count from the start of a
list, negative ones from its end, so that `-1` is the last element.  Of the
positions outside a list, those that no machine word holds are a fault of their
own.
-/

namespace LinearScan.Position

/-- Whether `i` fits into a signed word of 64 bits. -/
def fitsWord (i : Int) : Bool :=
  -0x8000000000000000 ≤ i && i < 0x8000000000000000

/-- The place, counted from the start, of position `i` in a list of length
`size`. -/
def resolve (size : Nat) (i : Int) : Except Fault Nat :=
  let k := if i < 0 then i + size else i
  if 0 ≤ k ∧ k < size then .ok k.toNat
  else if fitsWord i then .error .outOfRange
  else .error .tooWide

/-- As `resolve`, for a position that may be absent. -/
def resolve? (size : Nat) : Option Int → Except Fault Nat
  | some i => resolve size i
  | none => .error (.notAPosition .nothing)

/-- A position that counts from the start is its own place. -/
theorem resolve_natCast
    {size k : Nat} (h : k < size) :
    resolve size (k : Int) = .ok k := by
  have hk : ¬ (k : Int) < 0 := by omega
  have hlt : (k : Int) < size := by omega
  simp [resolve, hk, hlt]

/-- A resolved position lies inside its list. -/
theorem lt_of_resolve
    {size : Nat} {i : Int} {k : Nat}
    (h : resolve size i = .ok k) :
    k < size := by
  simp only [resolve] at h
  generalize (if i < 0 then i + (size : Int) else i) = j at h
  split at h
  · next hin =>
    simp only [Except.ok.injEq] at h
    omega
  · split at h <;> simp at h

theorem lt_of_resolve?
    {size : Nat} {i : Option Int} {k : Nat}
    (h : resolve? size i = .ok k) :
    k < size := by
  cases i with
  | none => simp [resolve?] at h
  | some i => exact lt_of_resolve h

end LinearScan.Position
