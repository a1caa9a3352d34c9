import TopDown.Grammar.Basic

/-!
# Clones

A clone is the same grammar under another identity. Every handle of the grammar corresponds to
the handle of the clone with the same number, and neither grammar accepts a handle of the other.

* `Grammar.clone` copies symbols, erased ones included, productions, start symbol and serial
  counter.
* `Correspondence` takes handles of a grammar to the handles of its clone.
-/

namespace TopDown

/-- The passage from the handles of one owner to the handles of another with the same layout. -/
structure Correspondence where
  source : Identity
  target : Identity
deriving DecidableEq, Repr

namespace Correspondence

def symbol? (m : Correspondence) (s : Symbol) : Option Symbol :=
  if s.owner = m.source then some (s.rebind m.target) else none

def production? (m : Correspondence) (id : Production.Id) : Option Production.Id :=
  if id.owner = m.source then some (id.rebind m.target) else none

end Correspondence

/-- The same grammar under another identity. -/
def Grammar.clone (g : Grammar) (id : Identity) : Grammar where
  symbols := g.symbols.fork id
  productions := g.productions.map (·.rebind id)
  start := g.start.map (·.rebind id)
  nextSerial := g.nextSerial

end TopDown
