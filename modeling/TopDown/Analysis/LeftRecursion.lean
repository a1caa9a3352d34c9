import TopDown.Analysis.Nullable
import TopDown.Analysis.Step

/-!
# Left recursion

A symbol is left-recursive if it derives a string that starts with itself. Left corners are
followed through nullable symbols, so recursion that hides behind them counts.

* `CornerAnalysis.recursion?` says how a rule takes part in left recursion. Direct recursion takes
  precedence over indirect recursion, and that over hidden recursion.
* `CornerAnalysis.hiddenCorner?` is the first position behind a nullable beginning from which
  the left-hand side is reached.
-/

namespace TopDown

/-- How a rule takes part in left recursion. -/
inductive Recursion where
  /-- `A → A α` -/
  | direct
  /-- `A → B α`, where `B` derives a string that starts with `A` -/
  | indirect
  /-- `A → α B β` with a nullable and not empty `α`, where `B` reaches `A` -/
  | hidden
deriving DecidableEq, Repr

/-- What is known about the left corners of a rule system. -/
structure CornerAnalysis where
  system : RuleSystem
  nullable : SymbolSet
  corners : SymbolRelation
deriving DecidableEq, Repr

def RuleSystem.leftRecursion (system : RuleSystem) : CornerAnalysis where
  system
  nullable := system.nullable
  corners := system.vanishingCorners system.nullable

namespace CornerAnalysis

def isLeftRecursive (a : CornerAnalysis) (s : Symbol) : Bool := a.corners.holds s s

def leftRecursive (a : CornerAnalysis) : List Symbol := a.corners.diagonal

def hasLeftRecursion (a : CornerAnalysis) : Bool := !a.leftRecursive.isEmpty

/-- Whether a symbol is another one or derives a string that starts with it. -/
def reaches (a : CornerAnalysis) (source target : Symbol) : Bool :=
  source = target || a.corners.holds source target

/-- The first position from which a left-hand side is reached, on the part of a right-hand side
behind a symbol, if that symbol and all up to the position are nullable. The part starts at
`position`. -/
def hiddenCornerBehind? (a : CornerAnalysis) (lhs : Symbol) (position : Nat) (before : Symbol) :
    List Symbol → Option Nat
  | [] => none
  | s :: rest =>
    if !a.nullable.contains before then none
    else if a.reaches s lhs then some position
    else a.hiddenCornerBehind? lhs (position + 1) s rest

/-- The first position behind a nullable and not empty beginning from which a rule reaches its
left-hand side. -/
def hiddenCorner? (a : CornerAnalysis) (rule : Rule) : Option Nat :=
  match rule.rhs with
  | [] => none
  | s :: rest => a.hiddenCornerBehind? rule.lhs 1 s rest

def recursion? (a : CornerAnalysis) (rule : Rule) : Option Recursion :=
  if rule.isLeftRecursive then some .direct
  else if rule.rhs.head?.any (a.corners.holds · rule.lhs) then some .indirect
  else (a.hiddenCorner? rule).map fun _ => .hidden

def classified (a : CornerAnalysis) : List (Rule × Recursion) :=
  a.system.rules.filterMap fun rule => (a.recursion? rule).map (Prod.mk rule)

/-- The symbols of the space that have a rule `A → A α`, in creation order. -/
def directlyLeftRecursive (a : CornerAnalysis) : List Symbol :=
  ((a.system.rules.filter (·.isLeftRecursive)).foldl (fun set rule => set.insert rule.lhs)
    a.system.noSymbols).members

end CornerAnalysis

end TopDown
