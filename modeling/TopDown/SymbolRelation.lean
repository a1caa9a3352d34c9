import TopDown.Rule
import TopDown.SymbolRelation.Table

/-!
# Relations between symbols

A symbol relation belongs to one owner and has one cell for each pair of symbols of the owner's
symbol space at the time it was made.

* `SymbolRelation.holds` answers for every pair of handles; handles that are foreign or beyond
  the space are related to nothing.
* `SymbolRelation.put?` is addressed by position: rows lie one after another, each as wide as the
  next multiple of 32, and a column beyond its row is a position further on. A position past the
  last row is refused.
* `SymbolRelation.transitiveClosure` and `reflexiveClosure` are those of its table of cells.
-/

namespace TopDown

/-- A relation between symbols of one owner. -/
structure SymbolRelation where
  owner : Identity
  size : Nat
  cells : SymbolRelation.Table size
deriving DecidableEq, Repr

namespace SymbolRelation

def empty (owner : Identity) (size : Nat) : SymbolRelation where
  owner
  size
  cells := .empty size

/-! ## Reading -/

def spans (r : SymbolRelation) (s : Symbol) : Bool := s.owner = r.owner && s.index < r.size

def holds (r : SymbolRelation) (a b : Symbol) : Bool :=
  a.owner = r.owner && b.owner = r.owner && r.cells.get a.index b.index

def symbols (r : SymbolRelation) : List Symbol := (List.range r.size).map (Symbol.mk r.owner)

def row (r : SymbolRelation) (a : Symbol) : List Symbol := r.symbols.filter (r.holds a)

def diagonal (r : SymbolRelation) : List Symbol := r.symbols.filter fun s => r.holds s s

/-! ## Writing -/

def link (r : SymbolRelation) (a b : Symbol) : SymbolRelation :=
  if r.spans a && r.spans b then { r with cells := r.cells.set a.index b.index true } else r

/-- The width of a row: the number of symbols, up to the next multiple of 32. -/
def rowWidth (r : SymbolRelation) : Nat := (r.size + 31) / 32 * 32

/-- The position of a pair of symbols of the owner, if it is not past the last row. -/
def position? (r : SymbolRelation) (a b : Symbol) : Option Nat :=
  let position := a.index * r.rowWidth + b.index
  if a.owner = r.owner ∧ b.owner = r.owner ∧ position < r.size * r.rowWidth then some position
  else none

/-- Fills or empties the cell at the position of a pair of symbols of the owner, if there is such
a position. A position beyond the symbols of its row has no cell. -/
def put? (r : SymbolRelation) (a b : Symbol) (value : Bool) : Option SymbolRelation :=
  (r.position? a b).map fun position =>
    { r with cells := r.cells.set (position / r.rowWidth) (position % r.rowWidth) value }

/-! ## Closures -/

def transitiveClosure (r : SymbolRelation) : SymbolRelation :=
  { r with cells := r.cells.transitiveClosure }

def reflexiveClosure (r : SymbolRelation) : SymbolRelation :=
  { r with cells := r.cells.reflexiveClosure }

/-! ## Which symbols are related -/

theorem holds_empty (owner : Identity) (size : Nat) (a b : Symbol) :
    (empty owner size).holds a b = false := by
  simp [holds, empty, Table.get_empty]

theorem holds_link {r : SymbolRelation} {a b : Symbol} (ha : r.spans a = true)
    (hb : r.spans b = true) (c d : Symbol) :
    (r.link a b).holds c d = if c = a ∧ d = b then true else r.holds c d := by
  have hlink : r.link a b = { r with cells := r.cells.set a.index b.index true } := by
    simp [link, ha, hb]
  simp only [spans, Bool.and_eq_true, decide_eq_true_eq] at ha hb
  rw [hlink]
  simp only [holds, Table.get_set, ha.2, hb.2, and_true]
  obtain ⟨ao, ai⟩ := a
  obtain ⟨bo, bi⟩ := b
  obtain ⟨co, ci⟩ := c
  obtain ⟨d, di⟩ := d
  obtain ⟨rfl, -⟩ := ha
  obtain ⟨rfl, -⟩ := hb
  by_cases hc : co = r.owner
  · by_cases hd : d = r.owner
    · simp [hc, hd]
    · simp [hd]
  · simp [hc]

theorem spans_of_holds {r : SymbolRelation} {a b : Symbol} (h : r.holds a b = true) :
    r.spans a = true ∧ r.spans b = true := by
  simp only [holds, Bool.and_eq_true, decide_eq_true_eq] at h
  obtain ⟨⟨ha, hb⟩, hcell⟩ := h
  have hlt : a.index < r.size ∧ b.index < r.size := by
    apply Decidable.byContradiction
    intro hn
    rw [Table.get_of_not_lt hn] at hcell
    cases hcell
  simp [spans, ha, hb, hlt]

theorem mem_symbols {r : SymbolRelation} {s : Symbol} : s ∈ r.symbols ↔ r.spans s = true := by
  simp only [symbols, spans, List.mem_map, List.mem_range, Bool.and_eq_true, decide_eq_true_eq]
  constructor
  · rintro ⟨i, hi, rfl⟩
    exact ⟨rfl, hi⟩
  · rintro ⟨ho, hi⟩
    exact ⟨s.index, hi, by rw [← ho]⟩

theorem mem_row {r : SymbolRelation} {a b : Symbol} : b ∈ r.row a ↔ r.holds a b = true := by
  rw [row, List.mem_filter, mem_symbols]
  exact ⟨fun h => h.2, fun h => ⟨(spans_of_holds h).2, h⟩⟩

theorem mem_diagonal {r : SymbolRelation} {s : Symbol} :
    s ∈ r.diagonal ↔ r.holds s s = true := by
  rw [diagonal, List.mem_filter, mem_symbols]
  exact ⟨fun h => h.2, fun h => ⟨(spans_of_holds h).1, h⟩⟩

/-! ## The order of enumeration -/

theorem pairwise_symbols {r : SymbolRelation} : r.symbols.Pairwise (·.index < ·.index) :=
  List.pairwise_map.mpr List.pairwise_lt_range

theorem pairwise_row {r : SymbolRelation} {a : Symbol} :
    (r.row a).Pairwise (·.index < ·.index) := pairwise_symbols.filter _

theorem pairwise_diagonal {r : SymbolRelation} : r.diagonal.Pairwise (·.index < ·.index) :=
  pairwise_symbols.filter _

end SymbolRelation

end TopDown
