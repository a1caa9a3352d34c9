import TopDown.SymbolTable

/-!
# Fresh names

`SymbolTable.freshName` is the base and the suffix put together, if no live symbol has that name,
and otherwise that followed by the least number from two on that makes the name free. A table
with `n` live symbols holds no more than `n` names, so `n` numbers are enough to try.
-/

namespace TopDown.SymbolTable

/-- The least number from two on that makes a taken name free, within as many tries as the table
has live symbols. -/
def freeNumber? (table : SymbolTable) (taken : String) : Option Nat :=
  (List.range' 2 table.liveCount).find? fun n => !table.isNameTaken (taken ++ toString n)

/-- A name that starts with a base and a suffix and that no live symbol has. -/
def freshName (table : SymbolTable) (base suffix : String) : String :=
  let name := base ++ suffix
  if table.isNameTaken name then
    match table.freeNumber? name with
    | some n => name ++ toString n
    | none => name
  else name

end TopDown.SymbolTable
