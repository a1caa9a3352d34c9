import TopDown.Production

/-!
# Why a grammar refuses a request

`Grammar.Error` has one constructor for each cause, and `Grammar.Error.message` is the wording.
A request that is refused leaves the grammar as it was.
-/

namespace TopDown

/-- The cause for which a grammar refuses a request. -/
inductive Grammar.Error where
  /-- The handle was never issued by this grammar. -/
  | foreignSymbol (symbol : Symbol)
  /-- The handle was issued by this grammar and erased since. -/
  | removedSymbol (symbol : Symbol)
  /-- A terminal stands where a nonterminal is required. -/
  | notANonterminal (name : String)
  /-- The symbol cannot be erased while a production mentions it. -/
  | symbolInUse (name : String) (production : String)
  /-- The symbol cannot be erased while it is the start symbol. -/
  | startSymbolInUse (name : String)
  /-- The ID names no production of this grammar. -/
  | unknownProduction (id : Production.Id)
  /-- Two drafts of one replacement keep the same ID. -/
  | duplicateProduction (id : Production.Id)
  /-- A description declares a name twice. -/
  | duplicateName (name : String)
  /-- A description uses a name that it does not declare. -/
  | undefinedName (name : String)
deriving DecidableEq, Repr

def Grammar.Error.message : Grammar.Error → String
  | foreignSymbol s => "symbol " ++ s.text ++ " belongs to another grammar"
  | removedSymbol s => "symbol " ++ s.text ++ " was removed from this grammar"
  | notANonterminal name => "`" ++ name ++ "` is a terminal, expected a nonterminal"
  | symbolInUse name production =>
    "symbol `" ++ name ++ "` is still used by production `" ++ production ++ "`"
  | startSymbolInUse name => "symbol `" ++ name ++ "` is the start symbol"
  | unknownProduction id => "production " ++ id.text ++ " does not belong to this grammar"
  | duplicateProduction id =>
    "production " ++ id.text ++ " appears twice in the new production list"
  | duplicateName name => "name `" ++ name ++ "` is declared more than once"
  | undefinedName name => "name `" ++ name ++ "` is not declared"

end TopDown
