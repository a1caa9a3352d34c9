import TopDown.Transform.FreshName
import TopDown.Transform.Journal
import TopDown.Transform.Options

/-!
# Transformations in progress

A transformation works on a list of drafts and leaves the productions of the grammar alone until
it is done; only its helper nonterminals are issued by the grammar at once. If it fails, the
helpers are erased again, so that nothing remains of it but their indices.

* `Progress.introduce` issues a helper with a fresh name.
* `Progress.submit` takes a new list of drafts and fails if it is longer than the limit.
* `Progress.commit` makes the drafts the productions of the grammar, and `Failure.abort` takes
  the helpers back. Either way the result is an `Outcome`.
-/

namespace TopDown.Transform

/-- How a transformation ends. -/
structure Outcome where
  /-- The grammar as it is afterwards. -/
  grammar : Grammar
  /-- The helper nonterminals in creation order, or the cause of failure. -/
  result : Except Error (List Symbol)
  journal : Array Event

/-- A transformation that is under way. -/
structure Progress where
  /-- The grammar with its old productions and the helpers issued so far. -/
  grammar : Grammar
  /-- The productions that the grammar is to have. -/
  drafts : List Draft
  /-- The helper nonterminals in creation order. -/
  helpers : List Symbol := []
  /-- Whether the drafts were touched. -/
  changed : Bool := false
  journal : Array Event := #[]
deriving DecidableEq, Repr

/-- A transformation that cannot go on. -/
structure Failure where
  progress : Progress
  error : Error
deriving DecidableEq, Repr

namespace Progress

def start (g : Grammar) (journal : Array Event) : Progress :=
  { grammar := g, drafts := g.drafts, journal }

def name (p : Progress) (s : Symbol) : String := p.grammar.displayName s

def note (p : Progress) (event : Event) : Progress := { p with journal := p.journal.push event }

def noteAll (p : Progress) (events : List Event) : Progress := events.foldl note p

/-- Issues a helper that is named after a nonterminal. -/
def introduce (p : Progress) (options : Options) (base : Symbol) : Symbol × Progress :=
  let name := p.grammar.symbols.freshName (p.name base) options.suffix
  let issued := p.grammar.addSymbol .nonterminal name
  (issued.1, { p with grammar := issued.2, helpers := p.helpers ++ [issued.1] })

/-- Takes a new list of drafts, made for the sake of a nonterminal. Fails if there are more than
the limit allows. -/
def submit (p : Progress) (options : Options) (nonterminal : Symbol) (drafts : List Draft) :
    Except Failure Progress :=
  let p := { p with drafts, changed := true }
  if options.limit < drafts.length then
    .error ⟨p, .tooManyProductions options.limit (p.name nonterminal)⟩
  else .ok p

@[simp]
theorem drafts_noteAll (p : Progress) (events : List Event) :
    (p.noteAll events).drafts = p.drafts := by
  unfold noteAll
  induction events generalizing p with
  | nil => rfl
  | cons event events ih => exact ih (p.note event)

@[simp]
theorem drafts_introduce (p : Progress) (options : Options) (base : Symbol) :
    (p.introduce options base).2.drafts = p.drafts := rfl

/-- A list of drafts is taken exactly if it is within the limit. -/
theorem submit_eq_ok_iff {p q : Progress} {options : Options} {nonterminal : Symbol}
    {drafts : List Draft} :
    p.submit options nonterminal drafts = .ok q ↔
      drafts.length ≤ options.limit ∧ q = { p with drafts, changed := true } := by
  by_cases h : options.limit < drafts.length
  · simp [submit, h, Nat.not_le.2 h]
  · simp [submit, h, Nat.not_lt.1 h, eq_comm]

/-- Erases a helper from the grammar. -/
def withdraw (p : Progress) (helper : Symbol) : Progress :=
  match p.grammar.eraseSymbol helper with
  | .ok none => p
  | .ok (some grammar) => { p with grammar }
  | .error cause => p.note (.helperKept helper cause)

end Progress

/-- Gives a transformation up: its helpers are erased and the productions stay as they were. -/
def Failure.abort (f : Failure) : Outcome :=
  let p := f.progress.helpers.foldl Progress.withdraw (f.progress.note (.aborted f.error))
  { grammar := p.grammar, result := .error f.error, journal := p.journal }

/-- Makes the drafts the productions of the grammar. A transformation that changed nothing leaves
the grammar as it is. -/
def Progress.commit (p : Progress) : Outcome :=
  if p.changed then
    match p.grammar.replaceProductions p.drafts with
    | .error cause => Failure.abort ⟨p, .refused cause⟩
    | .ok grammar =>
      let events := [.ofReplacement p.grammar p.drafts, .committed p.helpers.length]
      { grammar, result := .ok p.helpers, journal := (p.noteAll events).journal }
  else { grammar := p.grammar, result := .ok [], journal := p.journal }

/-- The drafts of a helper, one for each right-hand side, labelled by the helper's name and their
ordinals. -/
def helperDrafts (helper : Symbol) (name : String) (rhss : List (List Symbol)) : List Draft :=
  rhss.mapIdx fun k rhs =>
    { label := name ++ " #" ++ toString (k + 1), lhs := helper, rhs }

end TopDown.Transform
