import TopDown.Analysis.Saturation

/-!
# Nullable and used symbols

* `RuleSystem.nullable` is the set of symbols that derive the empty string: the left-hand sides
  of empty rules, saturated in mode `all`.
* `RuleSystem.used` is the set of symbols that occur in some rule.
-/

namespace TopDown.RuleSystem

/-- The left-hand sides of the rules whose right-hand side is empty. -/
def vanishing (system : RuleSystem) : SymbolSet :=
  (system.rules.filter (·.rhs.isEmpty)).foldl (fun set rule => set.insert rule.lhs)
    system.noSymbols

def nullable (system : RuleSystem) : SymbolSet := system.saturate .all system.vanishing

def used (system : RuleSystem) : SymbolSet :=
  (system.rules.flatMap fun rule => rule.lhs :: rule.rhs).foldl SymbolSet.insert system.noSymbols

end TopDown.RuleSystem
