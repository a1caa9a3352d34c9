import TopDown.Analysis.Nullable
import TopDown.Grammar.Description
import TopDown.Grammar.Edit
import TopDown.Grammar.Index
import TopDown.Grammar.Text

/-!
# Operations on a grammar

Whoever uses a grammar edits it and asks it questions, in any order. A question changes nothing.
Its answer may hold handles; where a grammar shows a symbol as text, the answer tells a name from
a handle that stands in for one.

* `Query.run` answers a question.
* `Operation.run` is one operation, `Operation.runAll` a sequence of them with all the responses.
* `text_display`, `join_pieces`: the pieces of an answer make up the text that is shown.
-/

namespace TopDown.Grammar

variable {g : Grammar} {s : Symbol}

/-! ## Text in pieces -/

inductive Piece where
  | word (text : String)
  /-- A symbol without a name in the grammar. -/
  | handle (s : Symbol)
deriving DecidableEq, Repr

def Piece.text : Piece → String
  | word text => text
  | handle s => s.text

@[simp] theorem Piece.text_word (text : String) : (word text).text = text := rfl

def display (g : Grammar) (s : Symbol) : Piece :=
  match g.symbols.name? s with
  | some name => .word name
  | none => .handle s

def rhsPieces (g : Grammar) : List Symbol → List Piece
  | [] => [.word " ε"]
  | rhs => rhs.flatMap fun s => [.word " ", g.display s]

def rulePieces (g : Grammar) (rule : Rule) : List Piece :=
  g.display rule.lhs :: .word " ->" :: g.rhsPieces rule.rhs

@[simp] theorem text_display (g : Grammar) (s : Symbol) : (g.display s).text = g.displayName s := by
  rw [display, displayName]
  cases g.symbols.name? s <;> rfl

theorem join_flatMap_display (g : Grammar) (rhs : List Symbol) :
    String.join ((rhs.flatMap fun s => [.word " ", g.display s]).map Piece.text) =
      String.join (rhs.map fun s => " " ++ g.displayName s) := by
  induction rhs with
  | nil => rfl
  | cons s rhs ih =>
      rw [List.flatMap_cons, List.map_append, String.join_append, ih]
      simp

/-- The pieces of a rule make up its text. -/
theorem join_rulePieces (g : Grammar) (rule : Rule) :
    String.join ((g.rulePieces rule).map Piece.text) = g.ruleText rule := by
  have hrhs : ∀ rhs, String.join ((g.rhsPieces rhs).map Piece.text) = g.rhsText rhs := by
    intro rhs
    cases rhs with
    | nil => simp [rhsPieces, rhsText]
    | cons s rhs => exact join_flatMap_display g (s :: rhs)
  rw [rulePieces, ruleText, List.map_cons, List.map_cons, String.join_cons, String.join_cons, hrhs,
    text_display, String.append_assoc]
  rfl

/-- A rule is shown with all its symbols. -/
theorem display_mem_rulePieces {rule : Rule} (hs : s ∈ rule.lhs :: rule.rhs) :
    g.display s ∈ g.rulePieces rule := by
  rcases List.mem_cons.mp hs with rfl | hs
  · exact List.mem_cons_self
  · refine List.mem_cons_of_mem _ (List.mem_cons_of_mem _ ?_)
    cases hrhs : rule.rhs with
    | nil => simp [hrhs] at hs
    | cons t rhs =>
        rw [hrhs] at hs
        exact List.mem_flatMap.mpr ⟨s, hs, by simp⟩

/-! ## Questions -/

/-- A question to a grammar. Viewing drafts is none: a view holds the drafts as they are, and no
handle in them is looked up. -/
inductive Query where
  | id
  /-- The symbol table as a whole, erased symbols included. -/
  | table
  | size
  | liveCount
  | symbols
  | ofKind (kind : Symbol.Kind)
  | contains (s : Symbol)
  | issued (s : Symbol)
  | kindOf (s : Symbol)
  | isOfKind (kind : Symbol.Kind) (s : Symbol)
  | nameOf (s : Symbol)
  | find (name : String)
  | isNameTaken (name : String)
  | start
  | productions
  | production (id : Production.Id)
  | productionsOf (lhs : Symbol)
  | index
  /-- The rules over the symbol space, which is all that the analyses see. -/
  | system
  | nullable
  | displayName (s : Symbol)
  | ruleText (rule : Rule)
  | text
  | describe
deriving DecidableEq, Repr

inductive Answer where
  | owner (id : Identity)
  | table (table : SymbolTable)
  | number (n : Nat)
  | truth (holds : Bool)
  | kind (kind? : Option Symbol.Kind)
  | name (name? : Option String)
  | symbol (s? : Option Symbol)
  | symbols (list : List Symbol)
  | production (p? : Option Production)
  | productions (list : List Production)
  | index (index : ProductionIndex)
  | system (system : RuleSystem)
  | set (set : SymbolSet)
  | pieces (pieces : List Piece)
  | text (text : String)
  | description (d : Description)
deriving DecidableEq, Repr

def Query.run (g : Grammar) : Query → Answer
  | id => .owner g.id
  | table => .table g.symbols
  | size => .number g.symbols.size
  | liveCount => .number g.symbols.liveCount
  | symbols => .symbols g.symbols.symbols
  | ofKind kind => .symbols (g.symbols.ofKind kind)
  | contains s => .truth (g.symbols.contains s)
  | issued s => .truth (g.symbols.issued s)
  | kindOf s => .kind (g.symbols.kind? s)
  | isOfKind kind s => .truth (g.symbols.kind? s == some kind)
  | nameOf s => .name (g.symbols.name? s)
  | find name => .symbol (g.symbols.find? name)
  | isNameTaken name => .truth (g.symbols.isNameTaken name)
  | start => .symbol g.start
  | productions => .productions g.productions
  | production i => .production (g.production? i)
  | productionsOf lhs => .productions (g.productionsOf lhs)
  | index => .index g.index
  | system => .system g.system
  | nullable => .set g.system.nullable
  | displayName s => .pieces [g.display s]
  | ruleText rule => .pieces (g.rulePieces rule)
  | text => .text g.text
  | describe => .description g.describe

/-! ## Operations in turn -/

inductive Operation where
  | edit (e : Edit)
  | query (q : Query)
deriving DecidableEq, Repr

inductive Response where
  | reply (r : Reply)
  | answer (a : Answer)
deriving DecidableEq, Repr

def Operation.run (g : Grammar) : Operation → Grammar × Response
  | edit e => ((e.apply g).1, .reply (e.apply g).2)
  | query q => (g, .answer (q.run g))

/-- The grammar after operations in turn, and its response to each. -/
def Operation.runAll (g : Grammar) : List Operation → Grammar × List Response
  | [] => (g, [])
  | op :: ops =>
    let after := op.run g
    let rest := runAll after.1 ops
    (rest.1, after.2 :: rest.2)

end TopDown.Grammar
