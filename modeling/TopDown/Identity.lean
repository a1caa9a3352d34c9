/-!
# Identities

Every grammar and every symbol table has an identity, and every handle carries the identity of
its owner. Identities come out of a supply that never hands out one twice, so a handle of one
owner is never taken for a handle of another.

* `Identity.text` writes an identity as `G1`, `G2`, ….
* `Identity.Supply.fresh` takes the next identity from a supply.
-/

namespace TopDown

/-- The identity of a grammar or of a symbol table. -/
structure Identity where
  number : Nat
deriving DecidableEq, Repr

namespace Identity

def text (owner : Identity) : String := "G" ++ toString owner.number

/-- A supply of identities, known by how many it has handed out. -/
structure Supply where
  issued : Nat := 0
deriving DecidableEq, Repr

/-- The next identity, numbered from one, and the supply that is left. -/
def Supply.fresh (supply : Supply) : Identity × Supply :=
  (⟨supply.issued + 1⟩, ⟨supply.issued + 1⟩)

end Identity

end TopDown
