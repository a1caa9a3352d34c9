import TopDown.Analysis.Cycle
import TopDown.Analysis.LeftRecursion
import TopDown.Transform.Progress

/-!
# Elimination of left recursion

The nonterminals are taken in creation order. For each nonterminal `N`, productions `N → M α`
with an earlier `M` that reaches `N` give way to the current productions of `M`; the direct left
recursion of `N` that is left then,

    N → N α₁ | … | N αₘ | β₁ | … | βₙ

is turned around by a helper `N'`:

    N → β₁ N' | … | βₙ N'
    N' → α₁ N' | … | αₘ N' | ε

* `Elimination.cycle?` and `Elimination.hiddenRecursion?` are what stands against it from the
  start: a symbol that derives itself alone, or left recursion behind nullable symbols.
* `Elimination.substitute` and `Elimination.turnAround` are the two steps on lists of drafts.
* `Grammar.eliminateLeftRecursion` runs them for all nonterminals and checks the result before it
  becomes the production list.
-/

namespace TopDown.Transform

namespace Elimination

/-! ## What stands against it -/

/-- The first cyclic nonterminal, as a cause of failure. -/
def cycle? (g : Grammar) : Option Error :=
  g.system.cycles.cyclic.head?.map fun s => .cycle (g.displayName s)

/-- The first production that is left-recursive behind nullable symbols, as a cause of failure. -/
def hiddenRecursion? (g : Grammar) : Option Error :=
  let analysis := g.system.leftRecursion
  (g.productions.find? fun p => (analysis.hiddenCorner? p.toRule).isSome).map fun p =>
    .hiddenLeftRecursion (g.displayName p.lhs) p.label

/-! ## Substitution -/

def startsWith (lhs corner : Symbol) (d : Draft) : Bool :=
  d.lhs = lhs && d.rhs.head? = some corner

def expansions (corner : Symbol) (drafts : List Draft) : List (List Symbol) :=
  (drafts.filter (·.lhs = corner)).map (·.rhs)

/-- Replaces each draft of `lhs` that starts with `corner`, in place, by one draft for each
expansion of `corner`. -/
def substitute (lhs corner : Symbol) (drafts : List Draft) : List Draft :=
  let beginnings := expansions corner drafts
  drafts.flatMap fun d =>
    if startsWith lhs corner d then
      beginnings.map fun beginning =>
        { label := d.label, lhs, rhs := beginning ++ d.rhs.tail }
    else [d]

def substitutionEvents (p : Progress) (lhs corner : Symbol) : List Event :=
  let count := (expansions corner p.drafts).length
  (p.drafts.filter (startsWith lhs corner)).map fun d =>
    .substituting count (p.name corner) d.label

/-- Substitutes the expansions of an earlier nonterminal that reaches `lhs`, where drafts of `lhs`
start with it. -/
def substituteCorner (options : Options) (corners : SymbolRelation) (lhs : Symbol)
    (p : Progress) (corner : Symbol) : Except Failure Progress :=
  if corners.holds corner lhs && p.drafts.any (startsWith lhs corner) then
    (p.noteAll (substitutionEvents p lhs corner)).submit options lhs
      (substitute lhs corner p.drafts)
  else .ok p

/-! ## Direct recursion -/

def isRecursive (lhs : Symbol) (d : Draft) : Bool := d.lhs = lhs && d.isLeftRecursive

def recursiveTails (lhs : Symbol) (drafts : List Draft) : List (List Symbol) :=
  (drafts.filter (isRecursive lhs)).map (·.rhs.tail)

/-- The drafts without the left-recursive ones of `lhs`; the others of `lhs` end in the helper. -/
def seeds (lhs helper : Symbol) (drafts : List Draft) : List Draft :=
  (drafts.filter fun d => !isRecursive lhs d).map fun d =>
    if d.lhs = lhs then { label := d.label, lhs, rhs := d.rhs ++ [helper] } else d

/-- Turns direct left recursion of `lhs` into right recursion of a helper. -/
def turnAround (lhs helper : Symbol) (name : String) (drafts : List Draft) : List Draft :=
  seeds lhs helper drafts ++
    helperDrafts helper name ((recursiveTails lhs drafts).map (· ++ [helper]) ++ [[]])

def removeDirect (options : Options) (lhs : Symbol) (p : Progress) : Except Failure Progress :=
  let tails := recursiveTails lhs p.drafts
  if tails.isEmpty then .ok p
  else if tails.any (·.isEmpty) then .error ⟨p, .cycle (p.name lhs)⟩
  else
    let (helper, p) := p.introduce options lhs
    let drafts := turnAround lhs helper (p.name helper) p.drafts
    let p := if drafts.any (·.lhs = lhs) then p else p.note (.exhausted (p.name lhs))
    let p := p.note (.recursionMoved (p.name helper) tails.length (p.name lhs))
    p.submit options lhs drafts

/-! ## All nonterminals in turn -/

def treat (options : Options) (corners : SymbolRelation) (earlier : List Symbol) (lhs : Symbol)
    (p : Progress) : Except Failure Progress := do
  let p ← earlier.foldlM (substituteCorner options corners lhs) p
  removeDirect options lhs p

def treatAll (options : Options) (corners : SymbolRelation) (earlier : List Symbol)
    (p : Progress) : List Symbol → Except Failure Progress
  | [] => .ok p
  | lhs :: rest => do
    let p ← treat options corners earlier lhs p
    treatAll options corners (earlier ++ [lhs]) p rest

/-- The first draft that is still left-recursive, as a cause of failure. -/
def remainder? (g : Grammar) (drafts : List Draft) : Option Error :=
  let analysis := (g.draftSystem drafts).leftRecursion
  (drafts.find? fun d => (analysis.recursion? d.toRule).isSome).map fun d =>
    .notConverged d.label

/-- Checks the drafts, if they were touched, and commits them. -/
def conclude (p : Progress) : Outcome :=
  if p.changed then
    let p := p.note (.ofClosure (p.grammar.draftSystem p.drafts))
    match remainder? p.grammar p.drafts with
    | some error => Failure.abort ⟨p, error⟩
    | none => p.commit
  else p.commit

/-- Eliminates left recursion from a grammar against which nothing stands. -/
def run (g : Grammar) (options : Options) (journal : Array Event) : Outcome :=
  let nonterminals := g.symbols.nonterminals
  let corners := g.system.vanishingCorners g.system.nullable
  let journal := journal ++ #[.ofClosure g.system, .eliminating nonterminals.length]
  match treatAll options corners [] (.start g journal) nonterminals with
  | .error failure => failure.abort
  | .ok p => conclude p

end Elimination

end TopDown.Transform

namespace TopDown

open Transform Transform.Elimination in
def Grammar.eliminateLeftRecursion (g : Grammar) (options : Options) : Outcome :=
  match cycle? g with
  | some error => { grammar := g, result := .error error, journal := #[] }
  | none =>
    match hiddenRecursion? g with
    | some error => { grammar := g, result := .error error, journal := #[.ofClosure g.system] }
    | none => run g options #[.ofClosure g.system]

end TopDown
