import TopDown.Analysis.Nullable
import TopDown.Analysis.Step

/-!
# Cycles

A symbol is cyclic if it derives itself alone in one or more steps. Symbols that derive the empty
string are looked through, so `A → B A` makes `A` cyclic if `B` is nullable.

* `CycleAnalysis.cyclic` lists the cyclic symbols in creation order.
* `CycleAnalysis.participates` tells whether a rule closes a cycle: it derives a symbol alone
  that is the left-hand side or derives it alone.
-/

namespace TopDown

/-- What is known about the cycles of a rule system. -/
structure CycleAnalysis where
  system : RuleSystem
  nullable : SymbolSet
  units : SymbolRelation
deriving DecidableEq, Repr

def RuleSystem.cycles (system : RuleSystem) : CycleAnalysis where
  system
  nullable := system.nullable
  units := system.unitDerivation system.nullable

namespace CycleAnalysis

def cyclic (a : CycleAnalysis) : List Symbol := a.units.diagonal

def isCyclic (a : CycleAnalysis) (s : Symbol) : Bool := a.units.holds s s

def isCycleFree (a : CycleAnalysis) : Bool := a.cyclic.isEmpty

/-- Whether a rule closes a cycle. -/
def participates (a : CycleAnalysis) (rule : Rule) : Bool :=
  (Step.alone a.nullable rule.rhs).any fun s => s = rule.lhs || a.units.holds s rule.lhs

def participants (a : CycleAnalysis) : List Rule := a.system.rules.filter a.participates

end CycleAnalysis

end TopDown
