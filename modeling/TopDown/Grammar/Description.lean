import TopDown.Grammar.Basic

/-!
# Descriptions

A description is a grammar told in names alone, fit to be stored and exchanged. Names stand for
symbols, so a description that can be loaded declares each name once.

* `Grammar.describe` tells a grammar in names, terminals apart from nonterminals, each in
  creation order.
* `Grammar.ofDescription` builds the grammar that a description tells of: it declares the
  terminals, then the nonterminals, adds the productions in order, and sets the start symbol.
  The first step that cannot be done is the cause of refusal.
-/

namespace TopDown

/-- A production told in names. -/
structure Description.Clause where
  label : String
  lhs : String
  rhs : List String
deriving DecidableEq, Repr

/-- A grammar told in names. -/
structure Description where
  terminals : List String
  nonterminals : List String
  start : Option String
  productions : List Description.Clause
deriving DecidableEq, Repr

namespace Grammar

def describe (g : Grammar) : Description where
  terminals := g.symbols.terminals.map g.displayName
  nonterminals := g.symbols.nonterminals.map g.displayName
  start := g.start.map g.displayName
  productions := g.productions.map fun p =>
    { label := p.label, lhs := g.displayName p.lhs, rhs := p.rhs.map g.displayName }

/-- Issues a symbol of a kind for each name, as long as no name is taken. -/
def declare (g : Grammar) (kind : Symbol.Kind) : List String → Except Error Grammar
  | [] => .ok g
  | name :: names =>
    if g.symbols.isNameTaken name then .error (.duplicateName name)
    else (g.addSymbol kind name).2.declare kind names

def resolve (g : Grammar) (name : String) : Except Error Symbol :=
  match g.symbols.find? name with
  | some s => .ok s
  | none => .error (.undefinedName name)

def addClause (g : Grammar) (clause : Description.Clause) : Except Error Grammar := do
  let lhs ← g.resolve clause.lhs
  let rhs ← clause.rhs.mapM g.resolve
  let (_, g) ← g.addProduction clause.label lhs rhs
  return g

def setStartByName (g : Grammar) (name : String) : Except Error Grammar := do
  let start ← g.resolve name
  g.setStart start

def ofDescription (id : Identity) (d : Description) : Except Error Grammar := do
  let g ← (empty id).declare .terminal d.terminals
  let g ← g.declare .nonterminal d.nonterminals
  let g ← d.productions.foldlM addClause g
  match d.start with
  | none => return g
  | some name => g.setStartByName name

end Grammar

end TopDown
