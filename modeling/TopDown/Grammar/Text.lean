import TopDown.Grammar.Basic

/-!
# Grammars as text

A rule is written as its left-hand side, an arrow and its symbols, such as `S -> a b`; an empty
right-hand side is written `ε`. The text of a grammar has one line for each production:

    S -> a S'
    S' -> a S'
    S' -> ε
-/

namespace TopDown.Grammar

/-- The written form of a right-hand side, with a space before each symbol. -/
def rhsText (g : Grammar) : List Symbol → String
  | [] => " ε"
  | rhs => String.join (rhs.map fun s => " " ++ g.displayName s)

def ruleText (g : Grammar) (rule : Rule) : String :=
  g.displayName rule.lhs ++ " ->" ++ g.rhsText rule.rhs

def rulesText (g : Grammar) (rules : List Rule) : String :=
  String.join (rules.map fun rule => g.ruleText rule ++ "\n")

def text (g : Grammar) : String := g.rulesText (g.productions.map (·.toRule))

end TopDown.Grammar
