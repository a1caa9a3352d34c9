import TopDown.Grammar.Error

/-!
# Why a transformation fails

`Transform.Error` has one constructor for each cause, and `Transform.Error.message` is the
wording.
-/

namespace TopDown.Transform

/-- The cause for which a transformation fails. -/
inductive Error where
  /-- The grammar refuses the new production list. -/
  | refused (cause : Grammar.Error)
  /-- A nonterminal derives itself alone, so its left recursion cannot be eliminated. -/
  | cycle (nonterminal : String)
  /-- A production is left-recursive behind a nullable beginning, out of reach of substitution. -/
  | hiddenLeftRecursion (nonterminal : String) (production : String)
  /-- The production list outgrew the limit. -/
  | tooManyProductions (limit : Nat) (nonterminal : String)
  /-- Left recursion remains at the end. -/
  | notConverged (production : String)
deriving DecidableEq, Repr

def Error.message : Error → String
  | refused cause => cause.message
  | cycle nonterminal => "nonterminal `" ++ nonterminal ++ "` derives itself"
  | hiddenLeftRecursion nonterminal production =>
    "production `" ++ production ++ "` of `" ++ nonterminal ++
      "` is left-recursive behind a nullable prefix"
  | tooManyProductions limit nonterminal =>
    "more than " ++ toString limit ++ " productions while rewriting `" ++ nonterminal ++ "`"
  | notConverged production =>
    "left recursion elimination did not converge: production `" ++ production ++
      "` is still left-recursive"

end TopDown.Transform
