/-!
# Tables with a default row

A table holds one row for every number.  Only finitely many rows have been
written; all others are the default row.  Reading and writing are therefore
total, and the two laws that relate them need no bound on the row number.
-/

namespace LinearScan

/-- Rows addressed by number, where a row that was never written is the
default one. -/
structure Table (α : Type) where
  /-- The rows up to the last one written. -/
  rows : Array α := #[]

namespace Table

variable {α : Type} [Inhabited α]

instance : Inhabited (Table α) := ⟨{}⟩

/-- The row with number `i`. -/
def get (t : Table α) (i : Nat) : α :=
  t.rows.getD i default

/-- The table whose row `i` is `a` and whose other rows are those of `t`. -/
def set (t : Table α) (i : Nat) (a : α) : Table α :=
  ⟨(t.rows ++ Array.replicate (i + 1 - t.rows.size) default).setIfInBounds i a⟩

/-- The table whose row `i` is changed by `f`. -/
def modify (t : Table α) (i : Nat) (f : α → α) : Table α :=
  t.set i (f (t.get i))

@[simp]
theorem get_empty (i : Nat) : ({} : Table α).get i = default := by
  simp [get]

/-- Reading back a table after a row was written. -/
theorem get_set (t : Table α) (i j : Nat) (a : α) :
    (t.set i a).get j = if i = j then a else t.get j := by
  simp only [get, set, Array.getD_eq_getD_getElem?, Array.getElem?_setIfInBounds,
    Array.size_append, Array.size_replicate, Array.getElem?_append]
  by_cases hij : i = j
  · subst hij
    simp [show i < t.rows.size + (i + 1 - t.rows.size) by omega]
  · by_cases hj : j < t.rows.size
    · simp [hij, hj]
    · simp only [hij, hj, if_false, Array.getElem?_replicate]
      split <;> simp_all

@[simp]
theorem get_set_self (t : Table α) (i : Nat) (a : α) :
    (t.set i a).get i = a := by
  simp [get_set]

theorem get_set_of_ne (t : Table α) {i j : Nat} (h : i ≠ j) (a : α) :
    (t.set i a).get j = t.get j := by
  simp [get_set, h]

/-- Reading back a table after a row was changed. -/
theorem get_modify (t : Table α) (i j : Nat) (f : α → α) :
    (t.modify i f).get j = if i = j then f (t.get j) else t.get j := by
  rw [modify, get_set]
  split
  · next h => rw [h]
  · rfl

@[simp]
theorem get_modify_self (t : Table α) (i : Nat) (f : α → α) :
    (t.modify i f).get i = f (t.get i) := by
  simp [get_modify]

theorem get_modify_of_ne (t : Table α) {i j : Nat} (h : i ≠ j) (f : α → α) :
    (t.modify i f).get j = t.get j := by
  simp [get_modify, h]

end Table
end LinearScan
