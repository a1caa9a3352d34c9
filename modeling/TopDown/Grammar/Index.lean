import TopDown.Grammar.Basic

/-!
# The index of productions

The index of a grammar lists, for each left-hand side, the IDs of its productions in the order of
the grammar. Left-hand sides come in the order of symbols, and only those that have a production
occur.

* `ProductionIndex.insert` adds one ID behind those of its left-hand side.
* `Grammar.index` builds the index in one pass over the productions.
-/

namespace TopDown

/-- Left-hand sides in order, each with the IDs of its productions. -/
structure ProductionIndex where
  entries : List (Symbol × List Production.Id) := []
deriving DecidableEq, Repr

namespace ProductionIndex

/-- Adds an ID at the end of the entry of a left-hand side, in a list that is in order. -/
def insertEntry (lhs : Symbol) (id : Production.Id) :
    List (Symbol × List Production.Id) → List (Symbol × List Production.Id)
  | [] => [(lhs, [id])]
  | (s, ids) :: entries =>
    if s = lhs then (s, ids ++ [id]) :: entries
    else if lhs.le s then (lhs, [id]) :: (s, ids) :: entries
    else (s, ids) :: insertEntry lhs id entries

def insert (index : ProductionIndex) (lhs : Symbol) (id : Production.Id) : ProductionIndex :=
  ⟨insertEntry lhs id index.entries⟩

def ids (index : ProductionIndex) (lhs : Symbol) : List Production.Id :=
  (index.entries.lookup lhs).getD []

def size (index : ProductionIndex) : Nat := index.entries.length

def isEmpty (index : ProductionIndex) : Bool := index.entries.isEmpty

end ProductionIndex

def Grammar.index (g : Grammar) : ProductionIndex :=
  g.productions.foldl (fun index p => index.insert p.lhs p.id) {}

end TopDown
