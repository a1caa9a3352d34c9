import TopDown.Grammar.Chain
import TopDown.Grammar.Replace

/-!
# Edits

An edit is a request to change a grammar, told as data. Applying it gives the grammar afterwards
and a reply; a refused edit leaves the grammar as it was, apart from the alternatives that a
chain added before it stopped.

* `Edit.apply` is the meaning of an edit.
* `Edit.applyAll` applies a list of edits in order and collects the replies.
-/

namespace TopDown.Grammar

/-- A request to change a grammar. -/
inductive Edit where
  | addSymbol (kind : Symbol.Kind) (name : String)
  | addSymbols (kind : Symbol.Kind) (names : List String)
  | renameSymbol (s : Symbol) (name : String)
  | eraseSymbol (s : Symbol)
  | setStart (s : Symbol)
  | clearStart
  | addProduction (label : String) (lhs : Symbol) (rhs : List Symbol)
  | build (lhs : Symbol) (steps : List ChainStep)
  | eraseProduction (id : Production.Id)
  | setLhs (id : Production.Id) (lhs : Symbol)
  | setRhs (id : Production.Id) (rhs : List Symbol)
  | setLabel (id : Production.Id) (label : String)
  | replaceProductions (drafts : List Draft)
deriving DecidableEq, Repr

inductive Reply where
  /-- It is done, and there is nothing more to say. -/
  | done
  /-- Whether there was something to erase. -/
  | erased (found : Bool)
  | symbol (s : Symbol)
  | symbols (issued : List Symbol)
  | production (id : Production.Id)
  | refused (cause : Error)
deriving DecidableEq, Repr

namespace Edit

/-- The outcome of an edit that may be refused and has nothing more to say. -/
def settle (g : Grammar) : Except Error Grammar → Grammar × Reply
  | .ok g => (g, .done)
  | .error cause => (g, .refused cause)

def apply (g : Grammar) : Edit → Grammar × Reply
  | addSymbol kind name =>
    let issued := g.addSymbol kind name
    (issued.2, .symbol issued.1)
  | addSymbols kind names =>
    let issued := g.addSymbols kind names
    (issued.2, .symbols issued.1)
  | renameSymbol s name => settle g (g.renameSymbol s name)
  | eraseSymbol s =>
    match g.eraseSymbol s with
    | .ok (some g) => (g, .erased true)
    | .ok none => (g, .erased false)
    | .error cause => (g, .refused cause)
  | setStart s => settle g (g.setStart s)
  | clearStart => (g.clearStart, .done)
  | addProduction label lhs rhs =>
    match g.addProduction label lhs rhs with
    | .ok (id, g) => (g, .production id)
    | .error cause => (g, .refused cause)
  | build lhs steps =>
    match g.build lhs steps with
    | (g, none) => (g, .done)
    | (g, some cause) => (g, .refused cause)
  | eraseProduction id =>
    match g.eraseProduction? id with
    | some g => (g, .erased true)
    | none => (g, .erased false)
  | setLhs id lhs => settle g (g.setLhs id lhs)
  | setRhs id rhs => settle g (g.setRhs id rhs)
  | setLabel id label => settle g (g.setLabel id label)
  | replaceProductions drafts => settle g (g.replaceProductions drafts)

def applyAll (g : Grammar) : List Edit → Grammar × List Reply
  | [] => (g, [])
  | edit :: edits =>
    let (g, reply) := edit.apply g
    let (g, replies) := applyAll g edits
    (g, reply :: replies)

end Edit

end TopDown.Grammar
