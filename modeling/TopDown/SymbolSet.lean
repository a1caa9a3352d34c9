import TopDown.Rule

/-!
# Sets of symbols

A symbol set belongs to one owner and has one bit for each index of the owner's symbol space at
the time the set was made. Handles of other owners and later symbols are never members.

* `SymbolSet.contains` answers for every handle; `SymbolSet.put?` refuses the handles that have
  no bit.
* `SymbolSet.members` lists the members in creation order.
* `SymbolSet.absent` counts the symbols that are not members; inserting one lowers it.
-/

namespace TopDown

/-- A set of symbols of one owner. -/
structure SymbolSet where
  owner : Identity
  /-- For each index of the symbol space, whether the symbol is a member. -/
  bits : Array Bool
deriving DecidableEq, Repr

namespace SymbolSet

/-- The number of indices that have a bit. -/
def size (set : SymbolSet) : Nat := set.bits.size

/-- The set over a symbol space in which every symbol has the same bit. -/
def replicate (owner : Identity) (size : Nat) (value : Bool) : SymbolSet :=
  ⟨owner, Array.replicate size value⟩

/-- Whether the set has a bit for a handle. -/
def spans (set : SymbolSet) (s : Symbol) : Bool := s.owner = set.owner && s.index < set.size

def contains (set : SymbolSet) (s : Symbol) : Bool :=
  s.owner = set.owner && set.bits[s.index]? == some true

/-- Includes or excludes a symbol, if the set has a bit for it. -/
def put? (set : SymbolSet) (s : Symbol) (value : Bool) : Option SymbolSet :=
  if set.spans s then some { set with bits := set.bits.setIfInBounds s.index value } else none

/-- Includes a symbol. The set is left alone if it has no bit for it. -/
def insert (set : SymbolSet) (s : Symbol) : SymbolSet := (set.put? s true).getD set

def containsAll (set : SymbolSet) (symbols : List Symbol) : Bool := symbols.all set.contains

def containsAny (set : SymbolSet) (symbols : List Symbol) : Bool := symbols.any set.contains

def members (set : SymbolSet) : List Symbol :=
  ((List.range set.size).map (Symbol.mk set.owner)).filter set.contains

def absent (set : SymbolSet) : Nat := set.bits.count false

/-! ## Membership -/

theorem spans_iff {set : SymbolSet} {s : Symbol} :
    set.spans s = true ↔ s.owner = set.owner ∧ s.index < set.bits.size := by
  rw [spans, Bool.and_eq_true, decide_eq_true_eq, decide_eq_true_eq]
  rfl

theorem spans_of_contains {set : SymbolSet} {s : Symbol} (h : set.contains s = true) :
    set.spans s = true := by
  simp only [contains, Bool.and_eq_true, decide_eq_true_eq, beq_iff_eq] at h
  obtain ⟨hi, -⟩ := Array.getElem?_eq_some_iff.1 h.2
  exact spans_iff.2 ⟨h.1, hi⟩

theorem contains_replicate {owner : Identity} {size : Nat} {value : Bool} {s : Symbol} :
    (replicate owner size value).contains s = true ↔
      s.owner = owner ∧ s.index < size ∧ value = true := by
  rw [contains, Bool.and_eq_true, decide_eq_true_eq, beq_iff_eq]
  simp [replicate, Array.getElem?_replicate]

theorem contains_of_put? {set changed : SymbolSet} {s : Symbol} {value : Bool}
    (h : set.put? s value = some changed) (t : Symbol) :
    changed.contains t = if t = s then value else set.contains t := by
  unfold put? at h
  split at h
  · rename_i hs
    cases h
    obtain ⟨ho, hi⟩ := spans_iff.1 hs
    by_cases hts : t = s
    · subst hts
      cases value <;> simp [contains, ho, hi]
    · rw [if_neg hts]
      by_cases ht : t.owner = set.owner
      · have : s.index ≠ t.index := by
          intro heq
          exact hts (by cases s; cases t; simp_all)
        simp [contains, ht, this]
      · simp [contains, ht]
  · cases h

theorem contains_insert {set : SymbolSet} {s : Symbol} (hs : set.spans s = true) (t : Symbol) :
    (set.insert s).contains t = if t = s then true else set.contains t := by
  have hput : set.put? s true = some (set.insert s) := by simp [insert, put?, hs]
  exact contains_of_put? hput t

theorem spans_insert (set : SymbolSet) (s t : Symbol) :
    (set.insert s).spans t = set.spans t := by
  unfold insert put?
  split
  · rw [Bool.eq_iff_iff, spans_iff, spans_iff]
    simp
  · rfl

theorem mem_members {set : SymbolSet} {s : Symbol} : s ∈ set.members ↔ set.contains s = true := by
  simp only [members, List.mem_filter, List.mem_map, List.mem_range, and_iff_right_iff_imp]
  intro h
  obtain ⟨ho, hi⟩ := spans_iff.1 (spans_of_contains h)
  exact ⟨s.index, hi, by rw [← ho]⟩

/-- Inserting a symbol that is missing lowers the number of absent symbols. -/
theorem absent_insert_lt {set : SymbolSet} {s : Symbol} (hs : set.spans s = true)
    (hc : set.contains s = false) : (set.insert s).absent < set.absent := by
  obtain ⟨ho, hi⟩ := spans_iff.1 hs
  have hbit : set.bits[s.index] = false := by simpa [contains, ho, hi] using hc
  have hpos : 0 < set.bits.count false := Array.count_pos_iff.2 (hbit ▸ Array.getElem_mem hi)
  simp only [insert, put?, hs, if_true, Option.getD_some, absent]
  rw [Array.setIfInBounds, dif_pos hi, Array.count_set, hbit, if_pos (by decide),
    if_neg (by decide)]
  omega

end SymbolSet

namespace RuleSystem

def noSymbols (system : RuleSystem) : SymbolSet := .replicate system.owner system.size false

def allSymbols (system : RuleSystem) : SymbolSet := .replicate system.owner system.size true

end RuleSystem

end TopDown
