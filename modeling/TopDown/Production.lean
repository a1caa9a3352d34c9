import TopDown.Rule

/-!
# Productions

A production is a rule of a grammar, with an ID that the grammar never gives to another production
and a label for the reader. A draft is a rule that is not part of a grammar yet; it may remember
the production it stands for, which then keeps its ID.

* `Production.draft` makes the draft that keeps a production as it is.
* `Production.rebind` moves a production to another owner, handle by handle.
-/

namespace TopDown

/-- A production's ID: its owner and a serial number of that owner. -/
structure Production.Id where
  owner : Identity
  serial : Nat
deriving DecidableEq, Repr

structure Production extends Rule where
  id : Production.Id
  label : String
deriving DecidableEq, Repr

/-- A rule that is not part of a grammar yet. -/
structure Draft extends Rule where
  /-- The production that the draft stands for, if it is to keep that production's ID. -/
  origin : Option Production.Id := none
  label : String
deriving DecidableEq, Repr

namespace Production

/-- The written form of an ID, such as `G1/P0`. -/
def Id.text (id : Id) : String := id.owner.text ++ "/P" ++ toString id.serial

def Id.rebind (id : Id) (owner : Identity) : Id := { id with owner }

/-- The draft that keeps this production. -/
def draft (p : Production) : Draft := { p with origin := some p.id }

def rebind (p : Production) (owner : Identity) : Production where
  lhs := p.lhs.rebind owner
  rhs := p.rhs.map (·.rebind owner)
  id := p.id.rebind owner
  label := p.label

end Production

end TopDown
