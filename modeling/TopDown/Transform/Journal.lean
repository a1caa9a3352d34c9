import TopDown.Grammar.Replace
import TopDown.Transform.Error

/-!
# The journal

What happens on the way is told by events, each with a level and a text.

* `Event.ofClosure` tells that the left corners of a rule system were computed.
* `Event.ofReplacement` tells that a grammar's productions were replaced.
-/

namespace TopDown

inductive Event.Level where
  | trace
  | debug
  | warn
deriving DecidableEq, Repr

/-- Something that happened on the way to a result. -/
inductive Event where
  /-- The left corner relation over a number of symbols was closed. -/
  | cornersClosed (symbols : Nat)
  /-- The elimination of left recursion begins. -/
  | eliminating (nonterminals : Nat)
  /-- A production gives way to the productions of its first symbol. -/
  | substituting (productions : Nat) (corner : String) (label : String)
  /-- All productions of a nonterminal were left-recursive. -/
  | exhausted (nonterminal : String)
  /-- A helper takes over the left-recursive productions of a nonterminal. -/
  | recursionMoved (helper : String) (productions : Nat) (nonterminal : String)
  /-- Alternatives of a nonterminal with a common beginning are merged. -/
  | factoring (alternatives : Nat) (nonterminal : String) (symbols : Nat)
  /-- A helper takes over the ends of merged alternatives. -/
  | endsMoved (helper : String) (alternatives : Nat) (nonterminal : String)
  /-- A production list was replaced by another, and some productions kept their IDs. -/
  | replaced (before : Nat) (after : Nat) (kept : Nat)
  /-- A transformation succeeded. -/
  | committed (helpers : Nat)
  /-- A transformation failed. -/
  | aborted (cause : Transform.Error)
  /-- A helper of a failed transformation could not be erased. -/
  | helperKept (helper : Symbol) (cause : Grammar.Error)
deriving DecidableEq, Repr

namespace Event

def ofClosure (system : RuleSystem) : Event := .cornersClosed system.size

def ofReplacement (g : Grammar) (drafts : List Draft) : Event :=
  .replaced g.productions.length drafts.length (drafts.countP (·.origin.isSome))

def level : Event → Level
  | cornersClosed .. | substituting .. | factoring .. => .trace
  | exhausted .. | helperKept .. => .warn
  | eliminating .. | recursionMoved .. | endsMoved .. | replaced .. | committed .. | aborted .. =>
    .debug

def text : Event → String
  | cornersClosed symbols =>
    "left corner relation over " ++ toString symbols ++ " symbols closed"
  | eliminating nonterminals =>
    "eliminating left recursion over " ++ toString nonterminals ++ " nonterminals"
  | substituting productions corner label =>
    "substituting " ++ toString productions ++ " productions of `" ++ corner ++ "` into `" ++
      label ++ "`"
  | exhausted nonterminal =>
    "`" ++ nonterminal ++ "` has no productions left: all of them were left-recursive"
  | recursionMoved helper productions nonterminal =>
    "introduced `" ++ helper ++ "` for " ++ toString productions ++
      " left-recursive productions of `" ++ nonterminal ++ "`"
  | factoring alternatives nonterminal symbols =>
    "factoring " ++ toString alternatives ++ " alternatives of `" ++ nonterminal ++
      "` with a common prefix of " ++ toString symbols ++ " symbols"
  | endsMoved helper alternatives nonterminal =>
    "introduced `" ++ helper ++ "` for " ++ toString alternatives ++ " alternatives of `" ++
      nonterminal ++ "`"
  | replaced before after kept =>
    "replaced " ++ toString before ++ " productions with " ++ toString after ++ " (" ++
      toString kept ++ " kept)"
  | committed helpers =>
    "rewrite committed with " ++ toString helpers ++ " helper nonterminals"
  | aborted cause => "rewrite aborted: " ++ cause.message
  | helperKept helper cause =>
    "helper nonterminal " ++ helper.text ++ " was not removed: " ++ cause.message

end Event

end TopDown
