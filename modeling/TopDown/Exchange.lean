import TopDown.Datum
import TopDown.Grammar.Description
import TopDown.Transform.Options

/-!
# Descriptions, options and kinds as data

Each type here is written as a datum by `toDatum` and read back by `ofDatum?`. Options and
descriptions are written as records. Their readers take a record or a list of its values in the
order in which they are written, skip fields that they do not know, and answer `none` if a field
that they need is missing or has another shape.
-/

namespace TopDown

/-! ## Kinds -/

namespace Symbol.Kind

def name : Kind → String
  | terminal => "Terminal"
  | nonterminal => "Nonterminal"

def ofName? (name : String) : Option Kind :=
  [terminal, nonterminal].find? fun kind => kind.name == name

def toDatum (kind : Kind) : Datum := .text kind.name

/-- Reads a kind: its name, or a record with its name and null. -/
def ofDatum? : Datum → Option Kind
  | .text name => ofName? name
  | .record [(name, .null)] => ofName? name
  | _ => none

end Symbol.Kind

/-! ## Options -/

namespace Transform.Options

/-- The least number that does not fit into 64 bits. It and those beyond it are refused as
limits. -/
def limitBound : Nat := 18446744073709551616

def toDatum (options : Options) : Datum :=
  .record [("prime_suffix", .text options.suffix), ("max_productions", .nat options.limit)]

def limitOfDatum? (d : Datum) : Option Nat := do
  let limit ← d.nat?
  if limit < limitBound then some limit else none

/-- Reads options. What is left out has its default. -/
def ofDatum? (d : Datum) : Option Options := do
  let fields ← d.fields? ["prime_suffix", "max_productions"]
  let suffix ←
    match Datum.field? fields "prime_suffix" with
    | none => some ({} : Options).suffix
    | some d => d.text?
  let limit ←
    match Datum.field? fields "max_productions" with
    | none => some ({} : Options).limit
    | some d => limitOfDatum? d
  return { suffix, limit }

end Transform.Options

/-! ## Descriptions -/

namespace Description

def Clause.toDatum (clause : Clause) : Datum :=
  .record
    [("name", .text clause.label), ("lhs", .text clause.lhs),
      ("rhs", .list (clause.rhs.map .text))]

def Clause.ofDatum? (d : Datum) : Option Clause := do
  let fields ← d.fields? ["name", "lhs", "rhs"]
  let label ← (← Datum.field? fields "name").text?
  let lhs ← (← Datum.field? fields "lhs").text?
  let rhs ← (← Datum.field? fields "rhs").texts?
  return { label, lhs, rhs }

def startToDatum : Option String → Datum
  | none => .null
  | some name => .text name

/-- Reads the name of a start symbol, which may be missing or null. -/
def startOfDatum? : Option Datum → Option (Option String)
  | none => some none
  | some .null => some none
  | some d => d.text?.map some

def toDatum (d : Description) : Datum :=
  .record
    [("terminals", .list (d.terminals.map .text)),
      ("nonterminals", .list (d.nonterminals.map .text)),
      ("start", startToDatum d.start),
      ("productions", .list (d.productions.map (·.toDatum)))]

/-- Reads a description. Only the start symbol may be left out, and only of a record. -/
def ofDatum? (d : Datum) : Option Description := do
  let fields ← d.fields? ["terminals", "nonterminals", "start", "productions"]
  let terminals ← (← Datum.field? fields "terminals").texts?
  let nonterminals ← (← Datum.field? fields "nonterminals").texts?
  let start ← startOfDatum? (Datum.field? fields "start")
  let clauses ← (← Datum.field? fields "productions").list?
  let productions ← clauses.mapM Clause.ofDatum?
  return { terminals, nonterminals, start, productions }

end Description

end TopDown
