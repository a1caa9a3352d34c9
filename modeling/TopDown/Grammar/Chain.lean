import TopDown.Grammar.Basic

/-!
# Chains of alternatives

A chain adds alternatives one after another. It starts at a left-hand side; `rule` switches to
another one, `label` sets the label of the next alternative, and `alternative` adds one. A chain
stops at the first step that is refused, and what came before stays.

* `Grammar.defaultLabel` is the label of an alternative that was given none: the name of the
  left-hand side and the alternative's ordinal.
* `Grammar.build` runs a chain and answers with the grammar it arrives at and with the refusal
  that stopped it, if one did.
-/

namespace TopDown.Grammar

inductive ChainStep where
  /-- Go on with another left-hand side, and forget a label that is still pending. -/
  | rule (lhs : Symbol)
  /-- Label the next alternative. -/
  | label (label : String)
  /-- Add an alternative for the current left-hand side. -/
  | alternative (rhs : List Symbol)
deriving DecidableEq, Repr

/-- The label of the next alternative of a left-hand side, such as `S #1`. -/
def defaultLabel (g : Grammar) (lhs : Symbol) : String :=
  g.displayName lhs ++ " #" ++ toString ((g.productionsOf lhs).length + 1)

/-- Runs the steps of a chain that stands at a left-hand side with a pending label. -/
def runChain (g : Grammar) (lhs : Symbol) (pending : Option String) :
    List ChainStep → Grammar × Option Error
  | [] => (g, none)
  | .rule lhs :: steps =>
    match g.nonterminalFault? lhs with
    | some fault => (g, some fault)
    | none => g.runChain lhs none steps
  | .label label :: steps => g.runChain lhs (some label) steps
  | .alternative rhs :: steps =>
    match g.addProduction (pending.getD (g.defaultLabel lhs)) lhs rhs with
    | .error fault => (g, some fault)
    | .ok (_, g) => g.runChain lhs none steps

def build (g : Grammar) (lhs : Symbol) (steps : List ChainStep) : Grammar × Option Error :=
  g.runChain lhs none (.rule lhs :: steps)

end TopDown.Grammar
