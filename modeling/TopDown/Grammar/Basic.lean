import TopDown.Grammar.Error
import TopDown.SymbolTable

/-!
# Grammars

A grammar owns a symbol table and an ordered list of productions, and may have a start symbol.
Whoever uses a grammar holds handles, and every edit checks the handles that it is given: an edit
that is refused answers with the cause and no grammar, so nothing is changed.

* `Grammar.ruleFault?` is the check behind every edit of a production: the left-hand side is a
  live nonterminal of the grammar and each symbol on the right-hand side a live symbol of it.
* `Grammar.addProduction` takes the next serial number; no serial number is used twice.
* `Grammar.eraseSymbol` refuses a symbol that a production or the start symbol mentions.
-/

namespace TopDown

/-- A context-free grammar. -/
structure Grammar where
  symbols : SymbolTable
  /-- The productions, in the order of the grammar. -/
  productions : List Production := []
  start : Option Symbol := none
  /-- The serial number of the next production. -/
  nextSerial : Nat := 0
deriving DecidableEq, Repr

namespace Grammar

def empty (id : Identity) : Grammar := { symbols := { id } }

def id (g : Grammar) : Identity := g.symbols.id

/-- The name by which a symbol is shown: its own name, or its handle if it has none here. -/
def displayName (g : Grammar) (s : Symbol) : String := (g.symbols.name? s).getD s.text

def system (g : Grammar) : RuleSystem where
  owner := g.id
  size := g.symbols.size
  rules := g.productions.map (·.toRule)

def draftSystem (g : Grammar) (drafts : List Draft) : RuleSystem where
  owner := g.id
  size := g.symbols.size
  rules := drafts.map (·.toRule)

/-- Drafts over the symbol space of the grammar, if they use no other handles. -/
def draftSystem? (g : Grammar) (drafts : List Draft) : Option RuleSystem :=
  let system := g.draftSystem drafts
  if system.isScoped then some system else none

/-! ## Productions by handle -/

def production? (g : Grammar) (id : Production.Id) : Option Production :=
  g.productions.find? (·.id = id)

def productionsOf (g : Grammar) (lhs : Symbol) : List Production :=
  g.productions.filter (·.lhs = lhs)

/-! ## Faults -/

/-- Why a handle is no live symbol of the grammar, if it is none. -/
def symbolFault? (g : Grammar) (s : Symbol) : Option Error :=
  if g.symbols.contains s then none
  else if g.symbols.issued s then some (.removedSymbol s)
  else some (.foreignSymbol s)

def nonterminalFault? (g : Grammar) (s : Symbol) : Option Error :=
  match g.symbols.kind? s with
  | some .nonterminal => none
  | some .terminal => some (.notANonterminal (g.displayName s))
  | none => g.symbolFault? s

def rhsFault? (g : Grammar) (rhs : List Symbol) : Option Error := rhs.findSome? g.symbolFault?

/-- The first fault of a rule: its left-hand side comes before its right-hand side. -/
def ruleFault? (g : Grammar) (rule : Rule) : Option Error :=
  g.nonterminalFault? rule.lhs <|> g.rhsFault? rule.rhs

/-- Grants a request with an answer, unless a fault stands against it. -/
def grant {α : Type} (fault? : Option Error) (answer : α) : Except Error α :=
  match fault? with
  | some fault => .error fault
  | none => .ok answer

/-! ## Symbols -/

def addSymbol (g : Grammar) (kind : Symbol.Kind) (name : String) : Symbol × Grammar :=
  let (s, symbols) := g.symbols.add kind name
  (s, { g with symbols })

def addSymbols (g : Grammar) (kind : Symbol.Kind) (names : List String) : List Symbol × Grammar :=
  let (issued, symbols) := g.symbols.addAll kind names
  (issued, { g with symbols })

def renameSymbol (g : Grammar) (s : Symbol) (name : String) : Except Error Grammar :=
  grant (g.symbolFault? s) { g with symbols := (g.symbols.rename? s name).getD g.symbols }

def mentions (s : Symbol) (p : Production) : Bool := p.lhs = s || p.rhs.contains s

/-- Why a live symbol cannot be erased: the first production that mentions it, or the start. -/
def eraseFault? (g : Grammar) (s : Symbol) : Option Error :=
  match g.productions.find? (mentions s) with
  | some p => some (.symbolInUse (g.displayName s) p.label)
  | none => if g.start = some s then some (.startSymbolInUse (g.displayName s)) else none

/-- Erases a symbol. The answer is `none` if the symbol is not live to begin with. -/
def eraseSymbol (g : Grammar) (s : Symbol) : Except Error (Option Grammar) :=
  match g.symbols.erase? s with
  | none => .ok none
  | some symbols => grant (g.eraseFault? s) (some { g with symbols })

/-! ## The start symbol -/

def setStart (g : Grammar) (s : Symbol) : Except Error Grammar :=
  grant (g.nonterminalFault? s) { g with start := some s }

def clearStart (g : Grammar) : Grammar := { g with start := none }

/-! ## Productions -/

/-- Appends a production under the next serial number. -/
def addProduction (g : Grammar) (label : String) (lhs : Symbol) (rhs : List Symbol) :
    Except Error (Production.Id × Grammar) :=
  let id : Production.Id := ⟨g.id, g.nextSerial⟩
  grant (g.ruleFault? ⟨lhs, rhs⟩)
    (id, { g with
      productions := g.productions ++ [{ lhs, rhs, id, label }]
      nextSerial := g.nextSerial + 1 })

/-- Erases a production. The answer is `none` if the ID names none. -/
def eraseProduction? (g : Grammar) (id : Production.Id) : Option Grammar :=
  (g.production? id).map fun _ =>
    { g with productions := g.productions.eraseP (·.id = id) }

def productionFault? (g : Grammar) (id : Production.Id) : Option Error :=
  if (g.production? id).isSome then none else some (.unknownProduction id)

def mapProduction (g : Grammar) (id : Production.Id) (f : Production → Production) : Grammar :=
  { g with productions := g.productions.map fun p => if p.id = id then f p else p }

def setLhs (g : Grammar) (id : Production.Id) (lhs : Symbol) : Except Error Grammar :=
  grant (g.nonterminalFault? lhs <|> g.productionFault? id)
    (g.mapProduction id fun p => { p with lhs })

def setRhs (g : Grammar) (id : Production.Id) (rhs : List Symbol) : Except Error Grammar :=
  grant (g.rhsFault? rhs <|> g.productionFault? id)
    (g.mapProduction id fun p => { p with rhs })

def setLabel (g : Grammar) (id : Production.Id) (label : String) : Except Error Grammar :=
  grant (g.productionFault? id) (g.mapProduction id fun p => { p with label })

end Grammar

end TopDown
