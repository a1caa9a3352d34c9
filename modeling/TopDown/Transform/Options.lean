/-!
# Options of a transformation

The suffix names helper nonterminals after the nonterminal they help, and the limit bounds the
length of the production list at every step.
-/

namespace TopDown.Transform

/-- Settings that the transformations share. -/
structure Options where
  /-- What is appended to a nonterminal's name to name its helper. -/
  suffix : String := "'"
  /-- The greatest length of the production list that is allowed. -/
  limit : Nat := 10000
deriving DecidableEq, Repr

end TopDown.Transform
