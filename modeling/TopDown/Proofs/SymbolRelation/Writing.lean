import Mathlib.Logic.Basic
import TopDown.SymbolRelation

/-!
# Writing to a relation

A write is addressed by position, and nothing checks that the column lies in its row. A column
past the end of the row belongs to a later row.

* `targetRow`, `targetColumn`: the pair whose cell lies at the position of another pair.
* `holds_of_put?`: every pair but that one is related as before.
* `put?_exact`: a write is confined to the pair that it names exactly if the column is within the
  width of the row, the position has no cell, or its cell has the value already.
* `put?_past_row`: a write that relates two other symbols than it names.
-/

namespace TopDown.SymbolRelation

variable {r changed : SymbolRelation} {a b c d : Symbol} {value : Bool}

/-! ## Positions -/

theorem size_le_rowWidth (r : SymbolRelation) : r.size ≤ r.rowWidth := by
  unfold rowWidth
  omega

/-- The row in which the position of a pair lies. -/
def targetRow (r : SymbolRelation) (a b : Symbol) : Symbol :=
  ⟨r.owner, a.index + b.index / r.rowWidth⟩

/-- The place in its row at which the position of a pair lies. -/
def targetColumn (r : SymbolRelation) (b : Symbol) : Symbol := ⟨r.owner, b.index % r.rowWidth⟩

/-- Where there is a position, rows are not empty, so it has a row and a place in it. -/
theorem position_eq {n : Nat} (hlt : a.index * r.rowWidth + b.index < n * r.rowWidth) :
    (a.index * r.rowWidth + b.index) / r.rowWidth = (r.targetRow a b).index ∧
      (a.index * r.rowWidth + b.index) % r.rowWidth = (r.targetColumn b).index := by
  have hwidth : 0 < r.rowWidth := Nat.pos_of_lt_mul_left hlt
  rw [Nat.mul_comm, Nat.mul_add_div hwidth, Nat.mul_add_mod]
  exact ⟨rfl, rfl⟩

/-- A column within the width of its row stays there. -/
theorem target_of_lt (ha : a.owner = r.owner) (hb : b.owner = r.owner)
    (hlt : b.index < r.rowWidth) : r.targetRow a b = a ∧ r.targetColumn b = b := by
  rw [targetRow, targetColumn, Nat.div_eq_of_lt hlt, Nat.mod_eq_of_lt hlt, Nat.add_zero]
  exact ⟨congrArg (Symbol.mk · a.index) ha.symm, congrArg (Symbol.mk · b.index) hb.symm⟩

/-- A write is taken exactly if its position is not past the last row, and fills or empties the
cell that lies there. -/
theorem put?_eq_some_iff : r.put? a b value = some changed ↔
    (a.owner = r.owner ∧ b.owner = r.owner ∧
      a.index * r.rowWidth + b.index < r.size * r.rowWidth) ∧
    changed = { r with
      cells := r.cells.set (r.targetRow a b).index (r.targetColumn b).index value } := by
  simp only [put?, position?, Option.map_eq_some_iff, Option.ite_none_right_eq_some,
    Option.some.injEq]
  constructor
  · rintro ⟨_, ⟨h, rfl⟩, rfl⟩
    obtain ⟨hrow, hcolumn⟩ := position_eq h.2.2
    exact ⟨h, by rw [hrow, hcolumn]⟩
  · rintro ⟨h, rfl⟩
    obtain ⟨hrow, hcolumn⟩ := position_eq h.2.2
    exact ⟨_, ⟨h, rfl⟩, by rw [hrow, hcolumn]⟩

theorem index_targetRow_lt (hlt : a.index * r.rowWidth + b.index < r.size * r.rowWidth) :
    (r.targetRow a b).index < r.size := by
  rw [← (position_eq hlt).1]
  exact Nat.div_lt_of_lt_mul (by rwa [Nat.mul_comm r.rowWidth])

/-! ## What a write changes -/

theorem holds_of_put? (h : r.put? a b value = some changed) (c d : Symbol) :
    changed.holds c d =
      if c = r.targetRow a b ∧ d = r.targetColumn b ∧ r.spans d = true then value
      else r.holds c d := by
  obtain ⟨⟨-, -, hlt⟩, rfl⟩ := put?_eq_some_iff.mp h
  have hrow : a.index + b.index / r.rowWidth < r.size := index_targetRow_lt hlt
  obtain ⟨owner, i⟩ := c
  obtain ⟨owner', j⟩ := d
  simp only [holds, Table.get_set, targetRow, targetColumn, spans, Symbol.mk.injEq,
    Bool.and_eq_true, decide_eq_true_eq]
  by_cases hc : owner = r.owner
  · by_cases hd : owner' = r.owner
    · subst hc
      simp only [hd, true_and, decide_true, Bool.true_and]
      refine if_congr ?_ rfl rfl
      constructor
      · rintro ⟨hi, hj, -, hcolumn⟩
        exact ⟨hi, hj, hj ▸ hcolumn⟩
      · rintro ⟨hi, rfl, hcolumn⟩
        exact ⟨hi, rfl, hrow, hcolumn⟩
    · simp [hd]
  · simp [hc]

/-- The pair that a write names reads as it was written if both symbols are in the space, and as
unrelated otherwise. -/
theorem holds_self_of_put? (h : r.put? a b value = some changed) :
    changed.holds a b = if r.spans a = true ∧ r.spans b = true then value else false := by
  obtain ⟨⟨ha, hb, hlt⟩, heq⟩ := put?_eq_some_iff.mp h
  split
  · rename_i hspans
    have hcolumn : b.index < r.size := by simpa [spans, hb] using hspans.2
    obtain ⟨hrow, hself⟩ := target_of_lt ha hb (Nat.lt_of_lt_of_le hcolumn r.size_le_rowWidth)
    rw [holds_of_put? h, hrow, hself, if_pos ⟨rfl, rfl, hspans.2⟩]
  · rename_i hspans
    rw [Bool.eq_false_iff]
    intro hholds
    obtain ⟨hrow, hcolumn⟩ := spans_of_holds hholds
    rw [heq] at hrow hcolumn
    exact hspans ⟨hrow, hcolumn⟩

/-- A write is confined to the pair that it names exactly if the column is within the width of the
row, or the place that it comes to in a later row belongs to no symbol or is filled in just this
way. -/
theorem confined_iff (h : r.put? a b value = some changed) :
    (∀ c d, ¬(c = a ∧ d = b) → changed.holds c d = r.holds c d) ↔
      b.index < r.rowWidth ∨ r.size ≤ b.index % r.rowWidth ∨
        r.holds (r.targetRow a b) (r.targetColumn b) = value := by
  obtain ⟨⟨ha, hb, hlt⟩, -⟩ := put?_eq_some_iff.mp h
  have hspans : r.spans (r.targetColumn b) = true ↔ b.index % r.rowWidth < r.size := by
    rw [spans, Bool.and_eq_true, decide_eq_true_eq, decide_eq_true_eq]
    exact and_iff_right rfl
  constructor
  · intro hsame
    rcases Nat.lt_or_ge b.index r.rowWidth with hwithin | hpast
    · exact Or.inl hwithin
    · rcases Nat.lt_or_ge (b.index % r.rowWidth) r.size with hcolumn | hcolumn
      · -- The place is a pair of its own there, so it had to hold the value before.
        have hlater : ¬(r.targetRow a b = a ∧ r.targetColumn b = b) := by
          intro heq
          have hwidth : 0 < r.rowWidth := Nat.pos_of_lt_mul_left hlt
          have hindex : b.index % r.rowWidth = b.index := congrArg Symbol.index heq.2
          exact Nat.not_lt.mpr hpast (hindex ▸ Nat.mod_lt _ hwidth)
        refine Or.inr (Or.inr ?_)
        rw [← hsame _ _ hlater, holds_of_put? h, if_pos ⟨rfl, rfl, hspans.mpr hcolumn⟩]
      · exact Or.inr (Or.inl hcolumn)
  · intro hcases c d hother
    rw [holds_of_put? h]
    split
    · rename_i htarget
      obtain ⟨rfl, rfl, hcolumn⟩ := htarget
      rcases hcases with hwithin | hpadding | hsame
      · exact absurd (target_of_lt ha hb hwithin) hother
      · exact absurd (hspans.mp hcolumn) (Nat.not_lt.mpr hpadding)
      · exact hsame.symm
    · rfl

/-- **What a write changes.** It fills or empties the cell at the position of the pair that it
names, and no other. The pair itself reads as it was written if both symbols are in the space, and
as unrelated otherwise. All other pairs are as before exactly if the column is within the width of
the row, or the place that it comes to in a later row belongs to no symbol or is filled in just
this way. Afterwards a row lists the symbols that its symbol is related to, and the diagonal those
that are related to themselves, each once and in creation order. -/
theorem put?_exact (h : r.put? a b value = some changed) :
    (∀ c d, changed.holds c d =
      if c = r.targetRow a b ∧ d = r.targetColumn b ∧ r.spans d = true then value
      else r.holds c d) ∧
    changed.holds a b = (if r.spans a = true ∧ r.spans b = true then value else false) ∧
    ((∀ c d, ¬(c = a ∧ d = b) → changed.holds c d = r.holds c d) ↔
      b.index < r.rowWidth ∨ r.size ≤ b.index % r.rowWidth ∨
        r.holds (r.targetRow a b) (r.targetColumn b) = value) ∧
    (∀ c, (changed.row c).Pairwise (·.index < ·.index) ∧
      ∀ d, d ∈ changed.row c ↔ changed.holds c d = true) ∧
    changed.diagonal.Pairwise (·.index < ·.index) ∧
      ∀ s, s ∈ changed.diagonal ↔ changed.holds s s = true :=
  ⟨holds_of_put? h, holds_self_of_put? h, confined_iff h,
    fun _ => ⟨pairwise_row, fun _ => mem_row⟩, pairwise_diagonal, fun _ => mem_diagonal⟩

/-- Over a space of three symbols a write to the last column of the first row is confined to it:
the column is within the width of the row. -/
theorem put?_exact_sample :
    let r : SymbolRelation := .empty ⟨1⟩ 3
    ∃ changed, r.put? ⟨⟨1⟩, 0⟩ ⟨⟨1⟩, 2⟩ true = some changed ∧
      changed.holds ⟨⟨1⟩, 0⟩ ⟨⟨1⟩, 2⟩ = true ∧
      ∀ c d, ¬(c = ⟨⟨1⟩, 0⟩ ∧ d = ⟨⟨1⟩, 2⟩) → changed.holds c d = r.holds c d := by
  intro r
  obtain ⟨changed, hput⟩ :=
    Option.isSome_iff_exists.mp (show (r.put? ⟨⟨1⟩, 0⟩ ⟨⟨1⟩, 2⟩ true).isSome by decide)
  obtain ⟨-, hself, hconfined, -⟩ := put?_exact hput
  exact ⟨changed, hput, hself, hconfined.mpr (Or.inl (by decide))⟩

/-- **A write past the end of its row.** Over a space of two symbols, rows are 32 wide. A write that
names the first symbol and one that was issued later relates the second symbol to the first. -/
theorem put?_past_row :
    let r : SymbolRelation := .empty ⟨1⟩ 2
    ∃ changed, r.put? ⟨⟨1⟩, 0⟩ ⟨⟨1⟩, 32⟩ true = some changed ∧
      r.holds ⟨⟨1⟩, 1⟩ ⟨⟨1⟩, 0⟩ = false ∧ changed.holds ⟨⟨1⟩, 1⟩ ⟨⟨1⟩, 0⟩ = true :=
  ⟨_, rfl, by decide, by decide⟩

end TopDown.SymbolRelation
