import TopDown.SymbolRelation
import TopDown.SymbolSet

/-!
# Relations that one rule step induces

A rule relates its left-hand side to some of the symbols on its right-hand side. Which ones is
read off the right-hand side and a set of symbols that may vanish.

* `Step.first` is the first symbol.
* `Step.corners` are the symbols that stand first once vanishing symbols before them are dropped.
* `Step.alone` are the symbols that are left alone once vanishing symbols around them are dropped.
* `RuleSystem.relate` collects the pairs of all rules.
* `RuleSystem.placesCorners` tells, of rules with symbols beyond their space, whether their left
  corners can be collected at all.
-/

namespace TopDown

namespace Step

def first (rhs : List Symbol) : List Symbol := rhs.take 1

/-- The symbols of a right-hand side before which all symbols may vanish. -/
def corners (vanishing : SymbolSet) : List Symbol → List Symbol
  | [] => []
  | s :: rhs => s :: if vanishing.contains s then corners vanishing rhs else []

/-- The symbols of a right-hand side before and behind which all symbols may vanish. -/
def alone (vanishing : SymbolSet) : List Symbol → List Symbol
  | [] => []
  | s :: rhs =>
    (if vanishing.containsAll rhs then [s] else []) ++
      if vanishing.contains s then alone vanishing rhs else []

end Step

namespace RuleSystem

/-- Relates each left-hand side to the symbols that a choice takes from its right-hand side. -/
def relate (system : RuleSystem) (choose : List Symbol → List Symbol) : SymbolRelation :=
  (system.rules.flatMap fun rule => (choose rule.rhs).map (Prod.mk rule.lhs)).foldl
    (fun r pair => r.link pair.1 pair.2) (.empty system.owner system.size)

/-- Relates `A` to `B` if `A` derives `B` alone in one or more steps, by rules `A → α B γ` in which
`α` and `γ` may vanish. -/
def unitDerivation (system : RuleSystem) (vanishing : SymbolSet) : SymbolRelation :=
  (system.relate (Step.alone vanishing)).transitiveClosure

/-- Relates `A` to `B` if a string that starts with `B` comes from `A` by replacing first symbols
alone. -/
def leftCorners (system : RuleSystem) : SymbolRelation :=
  (system.relate Step.first).transitiveClosure

/-- Whether the rules can be related to their left corners: each left-hand side lies in the symbol
space, and each corner has a position in its row or a later one. Symbols behind the corners do not
matter. -/
def placesCorners (system : RuleSystem) (vanishing : SymbolSet) : Bool :=
  system.rules.all fun rule =>
    system.spans rule.lhs && (Step.corners vanishing rule.rhs).all fun s =>
      ((SymbolRelation.empty system.owner system.size).position? rule.lhs s).isSome

/-- Relates `A` to `B` if a string that starts with `B` comes from `A` in one or more steps, where
symbols before `B` may vanish. -/
def vanishingCorners (system : RuleSystem) (vanishing : SymbolSet) : SymbolRelation :=
  (system.relate (Step.corners vanishing)).transitiveClosure

end RuleSystem

end TopDown
