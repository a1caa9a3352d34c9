import TopDown.Analysis.Saturation

/-!
# Propagation

The same saturation by a stack of work. A rule is looked at only when a symbol on its right-hand
side has just got the property, so the occurrences of symbols are listed in order of the symbols
beforehand, and those of one symbol are found as a stretch of that list.

* `RuleSystem.occurrences` is the list, `Occurrence.stretch` finds the stretch of a symbol.
* `Propagation.visit?` looks at one occurrence: if its rule fires and the left-hand side is
  missing, that is inserted and goes onto the stack. There is no answer if the set has no bit
  for it.
* `Propagation.run?` takes symbols from the stack until none is left. What is missing from the
  set and what is on the stack together get fewer with each symbol, so this ends.
* `RuleSystem.propagate?` starts with all members of a set on the stack.
-/

namespace TopDown

/-- A place of a symbol on the right-hand side of a rule. -/
structure Occurrence where
  symbol : Symbol
  rule : Rule
deriving DecidableEq, Repr

namespace Occurrence

def le (a b : Occurrence) : Bool := a.symbol.le b.symbol

/-- The occurrences of a symbol, in a list that is in order: smaller symbols are passed over, and
the stretch ends at the first other symbol. -/
def stretch (s : Symbol) (occurrences : List Occurrence) : List Occurrence :=
  (occurrences.dropWhile fun o => !s.le o.symbol).takeWhile (·.symbol = s)

end Occurrence

/-- The occurrences of all symbols, in order. Those of one symbol stay in the order of the
rules. -/
def RuleSystem.occurrences (system : RuleSystem) : List Occurrence :=
  (system.rules.flatMap fun rule => rule.rhs.map fun s => { symbol := s, rule }).mergeSort
    Occurrence.le

/-- A saturation under way: the set so far, and the members whose occurrences are still to be
visited, with the next one in front. -/
structure Propagation where
  set : SymbolSet
  stack : List Symbol
deriving DecidableEq, Repr

namespace Propagation

def visit? (mode : Saturation) (p : Propagation) (o : Occurrence) : Option Propagation :=
  if mode.fires p.set o.rule && !p.set.contains o.rule.lhs then
    (p.set.put? o.rule.lhs true).map fun set => { set, stack := o.rule.lhs :: p.stack }
  else some p

def visitAll? (mode : Saturation) (p : Propagation) (occurrences : List Occurrence) :
    Option Propagation :=
  occurrences.foldlM (visit? mode) p

/-- What is missing from the set and what is on the stack, counted together. -/
def remaining (p : Propagation) : Nat := p.set.absent + p.stack.length

theorem remaining_visit? {mode : Saturation} {p q : Propagation} {o : Occurrence}
    (h : p.visit? mode o = some q) : q.remaining ≤ p.remaining := by
  unfold visit? at h
  split at h
  · rename_i hfires
    simp only [Bool.and_eq_true, Bool.not_eq_true'] at hfires
    obtain ⟨set, hset, rfl⟩ := Option.map_eq_some_iff.1 h
    have hspans : p.set.spans o.rule.lhs = true := by
      unfold SymbolSet.put? at hset
      split at hset
      · assumption
      · cases hset
    have hlt := SymbolSet.absent_insert_lt hspans hfires.2
    rw [SymbolSet.insert, hset, Option.getD_some] at hlt
    simp only [remaining, List.length_cons]
    omega
  · cases h
    exact Nat.le_refl _

theorem remaining_visitAll? {mode : Saturation} {p q : Propagation}
    {occurrences : List Occurrence} (h : p.visitAll? mode occurrences = some q) :
    q.remaining ≤ p.remaining := by
  induction occurrences generalizing p with
  | nil =>
    cases h
    exact Nat.le_refl _
  | cons o occurrences ih =>
    obtain ⟨r, hr, hq⟩ := Option.bind_eq_some_iff.1 h
    exact Nat.le_trans (ih hq) (remaining_visit? hr)

/-- Visits the occurrences of the symbols on the stack until the stack is empty. -/
def run? (mode : Saturation) (occurrences : List Occurrence) : Propagation → Option SymbolSet
  | ⟨set, []⟩ => some set
  | ⟨set, s :: stack⟩ =>
    match _visited : visitAll? mode ⟨set, stack⟩ (Occurrence.stretch s occurrences) with
    | none => none
    | some p => run? mode occurrences p
termination_by p => p.remaining
decreasing_by
  exact Nat.lt_of_le_of_lt (remaining_visitAll? _visited) (Nat.lt_succ_self _)

end Propagation

/-- The saturated set by propagation, if every left-hand side that belongs into it has a bit. -/
def RuleSystem.propagate? (system : RuleSystem) (mode : Saturation) (set : SymbolSet) :
    Option SymbolSet :=
  Propagation.run? mode system.occurrences { set, stack := set.members.reverse }

end TopDown
