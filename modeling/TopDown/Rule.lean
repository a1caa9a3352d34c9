import TopDown.Symbol

/-!
# Rules

A rule is a left-hand side and the symbols it may be replaced by. A rule system is a list of rules
over one symbol space; the analyses work on rule systems, so they apply to a grammar as well as to
a list of rules that is not part of a grammar yet.

* `Rule.isLeftRecursive` is the direct test, `A → A α`.
* `RuleSystem.spans` says that a handle lies in the symbol space of a system, and `IsScoped` that
  the rules use no other handles.
-/

namespace TopDown

/-- A left-hand side and the symbols it is replaced by. -/
structure Rule where
  lhs : Symbol
  rhs : List Symbol
deriving DecidableEq, Repr

def Rule.isLeftRecursive (rule : Rule) : Bool := rule.rhs.head? = some rule.lhs

/-- Rules over the symbol space of one owner. -/
structure RuleSystem where
  owner : Identity
  /-- The number of symbol indices in use, those of erased symbols included. -/
  size : Nat
  rules : List Rule
deriving DecidableEq, Repr

namespace RuleSystem

def spans (system : RuleSystem) (s : Symbol) : Bool :=
  s.owner = system.owner && s.index < system.size

/-- Whether the rules use symbols of their own space only. -/
def isScoped (system : RuleSystem) : Bool :=
  system.rules.all fun rule => system.spans rule.lhs && rule.rhs.all system.spans

end RuleSystem

end TopDown
