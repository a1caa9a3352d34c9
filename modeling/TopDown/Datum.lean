/-!
# Data for exchange

A datum is a value as tools exchange it: records, lists, text, numbers, truth values and null.
Reading takes a part of a datum and answers `none` if the part has another shape.

* `Datum.fields?` reads fields by their names or by their places.
* `Datum.field?` is the last value that a record gives to a name.
* `Datum.texts?` reads a list of text.
-/

namespace TopDown

/-- A value that tools exchange. -/
inductive Datum where
  | null
  | truth (value : Bool)
  | nat (value : Nat)
  /-- A number that is not a natural number. -/
  | number
  | text (value : String)
  | list (items : List Datum)
  | record (fields : List (String × Datum))
deriving Repr, Inhabited

namespace Datum

def truth? : Datum → Option Bool
  | truth value => some value
  | _ => none

def text? : Datum → Option String
  | text value => some value
  | _ => none

def nat? : Datum → Option Nat
  | nat value => some value
  | _ => none

def list? : Datum → Option (List Datum)
  | list items => some items
  | _ => none

def record? : Datum → Option (List (String × Datum))
  | record fields => some fields
  | _ => none

/-- Reads the fields of a record, or a list of values without their names. The items of a list
are the first of the named fields, in order, so a list is no longer than the names. -/
def fields? (names : List String) : Datum → Option (List (String × Datum))
  | record fields => some fields
  | list items => if items.length ≤ names.length then some (names.zip items) else none
  | _ => none

def texts? (d : Datum) : Option (List String) := d.list? >>= fun items => items.mapM text?

def field? (fields : List (String × Datum)) (name : String) : Option Datum :=
  fields.reverse.lookup name

end Datum

end TopDown
