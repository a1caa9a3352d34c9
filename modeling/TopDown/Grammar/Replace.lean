import TopDown.Grammar.Basic

/-!
# Replacing all productions at once

`Grammar.replaceProductions` checks a complete list of drafts and makes it the production list of
the grammar, or refuses it as a whole. A draft with an origin keeps that production's ID; the
others receive new serial numbers in list order.

* `Grammar.draftFault?` is the check of one draft, given the IDs that earlier drafts keep.
* `Grammar.draftsFault?` is the first fault of a list of drafts.
* `Grammar.numbered` gives each draft of a list its ID.
-/

namespace TopDown.Grammar

/-- Why a draft is refused, given the IDs that earlier drafts of the list keep: a fault of its
rule, an origin that names no production, or an origin that is kept already. -/
def draftFault? (g : Grammar) (kept : List Production.Id) (d : Draft) : Option Error :=
  g.ruleFault? d.toRule <|>
    match d.origin with
    | none => none
    | some id =>
      g.productionFault? id <|>
        if id ∈ kept then some (.duplicateProduction id) else none

/-- The first fault of a list of drafts, given the IDs that are kept before it. -/
def draftsFault? (g : Grammar) (kept : List Production.Id) : List Draft → Option Error
  | [] => none
  | d :: drafts =>
    g.draftFault? kept d <|> g.draftsFault? (d.origin.toList ++ kept) drafts

/-- The productions that a list of drafts stands for, with new serial numbers from a number on. -/
def numbered (owner : Identity) : Nat → List Draft → List Production
  | _, [] => []
  | serial, d :: drafts =>
    match d.origin with
    | some id => { d with id } :: numbered owner serial drafts
    | none => { d with id := ⟨owner, serial⟩ } :: numbered owner (serial + 1) drafts

def replaceProductions (g : Grammar) (drafts : List Draft) : Except Error Grammar :=
  grant (g.draftsFault? [] drafts)
    { g with
      productions := numbered g.id g.nextSerial drafts
      nextSerial := g.nextSerial + drafts.countP (·.origin.isNone) }

/-- The drafts that keep every production as it is. -/
def drafts (g : Grammar) : List Draft := g.productions.map (·.draft)

end TopDown.Grammar
