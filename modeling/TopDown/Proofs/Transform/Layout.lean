import TopDown.Proofs.Elimination.Layout
import TopDown.Proofs.Factoring.Layout

/-!
# The order of the productions

Neither transformation moves a production.

* `layout_of_ok`: what is left of the productions of the grammar comes first, in its order, and is
  followed by the blocks of the helpers; what the transformation has no reason to touch is as it
  was.
-/

namespace TopDown.Transform

open Elimination Factoring

variable {g : Grammar}

theorem kind?_of_key_mem (hg : g.WellFormed) {q : Production}
    (h : q.key ∈ g.productions.map (·.key)) : g.symbols.kind? q.lhs = some .nonterminal := by
  obtain ⟨r, hr, hkey⟩ := List.mem_map.mp h
  rw [← show r.lhs = q.lhs from congrArg Prod.fst hkey]
  exact (hg.admits r hr).1

/-- **The transformations keep the order of the productions, and touch only what they must.** The
elimination keeps every production of a nonterminal that is not left-recursive, and left-factoring
every empty alternative and every alternative that shares its first symbol with no other: each with
its ID, its label and its sides. The productions afterwards are those of nonterminals of the
grammar, followed by one block for each helper, in the order in which the helpers were issued. In
the first part the left-hand sides and labels are those of the grammar, each in its place and
copied any number of times by the elimination, and once or not at all by left-factoring. A block
of the elimination has alternatives that end in the helper behind at least one symbol, and then
the empty one. -/
theorem layout_of_ok (hg : g.Reachable) (options : Options) :
    (∀ helpers, (g.eliminateLeftRecursion options).result = .ok helpers →
      let after := (g.eliminateLeftRecursion options).grammar.productions
      (∀ q ∈ g.productions, ¬LeftRecursive g.system.rules q.lhs → q ∈ after) ∧
      ∃ part rest, after = part ++ rest ∧
        (∀ q ∈ part, g.symbols.kind? q.lhs = some .nonterminal) ∧
        InPlace Copies (g.productions.map (·.key)) (part.map (·.key)) ∧
        InPlace Block helpers (rest.map (·.toRule))) ∧
    ∀ helpers, (g.leftFactor options).result = .ok helpers →
      let after := (g.leftFactor options).grammar.productions
      (∀ q ∈ g.productions, (q.rhs = [] ∨ ∀ r ∈ g.productions, r ≠ q → r.lhs = q.lhs →
        r.rhs.head? ≠ q.rhs.head?) → q ∈ after) ∧
      ∃ part rest, after = part ++ rest ∧
        (∀ q ∈ part, g.symbols.kind? q.lhs = some .nonterminal) ∧
        (part.map (·.key)).Sublist (g.productions.map (·.key)) ∧
        InPlace (fun h block => block ≠ [] ∧ ∀ key ∈ block, key.1 = h) helpers
          (rest.map (·.key)) := by
  have hwf := hg.wellFormed
  constructor
  · intro helpers hok
    obtain ⟨p, hp, rfl, heq⟩ := Elimination.exists_layout_of_ok hwf hok
    rw [heq]
    obtain ⟨hkept, part, rest, hsplit, hpart, hrest⟩ := hp.productions hwf
    refine ⟨hkept, part, rest, hsplit, fun q hq => kind?_of_key_mem hwf ?_, hpart, hrest⟩
    obtain ⟨key, hkey, copies, hcopies, hmem⟩ := hpart.exists_of_mem (List.mem_map_of_mem hq)
    exact hcopies _ hmem ▸ hkey
  · intro helpers hok
    obtain ⟨hkept, part, rest, hsplit, hpart, hrest⟩ := Factoring.exists_layout_of_ok hwf hok
    refine ⟨hkept, part, rest, hsplit, fun q hq => kind?_of_key_mem hwf ?_, hpart, hrest⟩
    exact hpart.subset (List.mem_map_of_mem hq)

/-- The alternative `S a` of the sample starts with another symbol than the two that are merged, so
left-factoring keeps it; the elimination makes it an alternative of the helper. -/
theorem layout_of_ok_sample :
    let q : Production := ⟨⟨⟨⟨1⟩, 0⟩, [⟨⟨1⟩, 0⟩, ⟨⟨1⟩, 1⟩]⟩, ⟨⟨1⟩, 0⟩, "S #1"⟩
    q ∈ Grammar.sample.productions ∧
      q ∈ (Grammar.sample.leftFactor {}).grammar.productions ∧
      ∃ part rest, (Grammar.sample.eliminateLeftRecursion {}).grammar.productions = part ++ rest ∧
        InPlace Block [⟨⟨1⟩, 3⟩] (rest.map (·.toRule)) := by
  have helimination : (Grammar.sample.eliminateLeftRecursion {}).result = .ok [⟨⟨1⟩, 3⟩] := by
    decide +kernel
  have hfactoring := Grammar.leftFactor_sample
  obtain ⟨heliminated, hfactored⟩ := layout_of_ok Grammar.reachable_sample {}
  obtain ⟨-, part, rest, hsplit, -, -, hrest⟩ := heliminated _ helimination
  refine ⟨by decide +kernel, (hfactored _ hfactoring).1 _ (by decide +kernel) (.inr ?_),
    part, rest, hsplit, hrest⟩
  decide +kernel

end TopDown.Transform
