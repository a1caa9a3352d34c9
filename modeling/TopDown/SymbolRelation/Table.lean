/-!
# Square tables of truth values

A table of side `n` has a cell for each pair of indices below `n`.

* `Table.get_set` and `Table.get_closeVia` say what the two operations do to each cell.
* `Table.transitiveClosure` lets each index in turn be a way station.
-/

namespace TopDown.SymbolRelation

/-- Truth values for the pairs of indices below a bound, row by row. -/
structure Table (n : Nat) where
  rows : Vector (Vector Bool n) n
deriving DecidableEq, Repr

namespace Table

variable {n : Nat}

def empty (n : Nat) : Table n := ⟨Vector.replicate n (Vector.replicate n false)⟩

/-- The cell of a pair of indices. Beyond the table it is empty. -/
def get (t : Table n) (i j : Nat) : Bool :=
  if hi : i < n then if hj : j < n then t.rows[i][j] else false else false

/-- Fills or empties the cell of a pair of indices. Beyond the table there is no cell to change. -/
def set (t : Table n) (i j : Nat) (value : Bool) : Table n :=
  ⟨if h : i < n then t.rows.set i (t.rows[i].setIfInBounds j value) else t.rows⟩

/-- Fills whatever is connected by way of one index: a row that has the index takes in the row of
the index. -/
def closeVia (t : Table n) (k : Nat) : Table n :=
  if h : k < n then
    ⟨t.rows.map fun row => if row[k] then row.zipWith (· || ·) t.rows[k] else row⟩
  else t

/-- Fills whatever is connected in one or more steps. -/
def transitiveClosure (t : Table n) : Table n := (List.range n).foldl closeVia t

def reflexiveClosure (t : Table n) : Table n :=
  ⟨t.rows.mapFinIdx fun i row _ => row.setIfInBounds i true⟩

/-! ## Cell by cell -/

theorem get_of_not_lt {t : Table n} {i j : Nat} (h : ¬(i < n ∧ j < n)) : t.get i j = false := by
  unfold get
  split
  · split
    · exact absurd ⟨‹i < n›, ‹j < n›⟩ h
    · rfl
  · rfl

theorem get_empty (i j : Nat) : (empty n).get i j = false := by
  unfold get empty
  split <;> simp

theorem get_set (t : Table n) (i j i' j' : Nat) (value : Bool) :
    (t.set i j value).get i' j' =
      if i' = i ∧ j' = j ∧ i < n ∧ j < n then value else t.get i' j' := by
  by_cases h : i' < n ∧ j' < n
  · obtain ⟨hi, hj⟩ := h
    by_cases e : i' = i
    · subst e
      by_cases f : j = j'
      · subst f
        simp [get, set, hi, hj]
      · simp [get, set, hi, hj, f, Ne.symm f]
    · by_cases hi₀ : i < n
      · simp [get, set, hi, hj, hi₀, e, Ne.symm e]
      · simp [get, set, hi, hj, hi₀, e]
  · rw [get_of_not_lt h, get_of_not_lt h, if_neg]
    rintro ⟨rfl, rfl, hi, hj⟩
    exact h ⟨hi, hj⟩

theorem get_closeVia (t : Table n) (k i j : Nat) :
    (t.closeVia k).get i j = (t.get i j || (t.get i k && t.get k j)) := by
  by_cases hk : k < n
  · by_cases h : i < n ∧ j < n
    · obtain ⟨hi, hj⟩ := h
      by_cases hik : t.rows[i][k]
      · simp [get, closeVia, hi, hj, hk, hik]
      · simp [get, closeVia, hi, hj, hk, hik]
    · rw [get_of_not_lt h, get_of_not_lt h]
      by_cases hi : i < n
      · rw [get_of_not_lt (i := k) (j := j) fun hc => h ⟨hi, hc.2⟩]
        simp
      · rw [get_of_not_lt (i := i) (j := k) fun hc => hi hc.1]
        simp
  · rw [get_of_not_lt (i := i) (j := k) fun hc => hk hc.2]
    simp [closeVia, hk]

end Table

end TopDown.SymbolRelation
