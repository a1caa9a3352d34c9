import TopDown.Proofs.Elimination.Growth
import TopDown.Proofs.Factoring.Overlap

/-!
# The threshold of the limit

Both transformations check the length of their drafts after every step, and still the limit is
nothing but a bound on the length of the result.

* `threshold_of_limit`: where there is something to do, there is an exact threshold; where there is
  nothing to do, every limit will do.
-/

namespace TopDown.Transform

open Elimination Factoring

variable {g : Grammar}

/-- **The limit is a mere cutoff.** Where nothing is left-recursive, the elimination succeeds
without helpers under every limit, and so does left-factoring where no two alternatives of a
nonterminal start with the same symbol. In every other case, for the elimination if nothing stands
against it, there is a threshold, the length of the production list that comes out: the limits
from there on all lead to the same outcome, and the lower ones are reported as too low. -/
theorem threshold_of_limit (hg : g.Reachable) (suffix : String) :
    ((∀ a, ¬LeftRecursive g.system.rules a) → ∀ limit,
      let outcome := g.eliminateLeftRecursion { suffix, limit }
      outcome.result = .ok [] ∧ outcome.grammar = g) ∧
    ((∀ a, ¬Cyclic g.system.rules a) → (∀ q ∈ g.productions, ¬Hides g.system.rules q.toRule) →
      (∃ a, LeftRecursive g.system.rules a) →
      Thresholded fun limit => g.eliminateLeftRecursion { suffix, limit }) ∧
    (Factored g.system.rules → ∀ limit,
      let outcome := g.leftFactor { suffix, limit }
      outcome.result = .ok [] ∧ outcome.grammar = g) ∧
    (¬Factored g.system.rules → Thresholded fun limit => g.leftFactor { suffix, limit }) := by
  have hwf := hg.wellFormed
  refine ⟨fun hnone _ => unchanged_of_not_leftRecursive hwf hnone,
    thresholded_eliminateLeftRecursion { suffix } hwf,
    fun hfactored _ => leftFactor_of_factored _ hwf hfactored,
    thresholded_leftFactor { suffix } hwf⟩

/-- Both transformations make four productions of the three of the sample, so the limit three is
too low for either. -/
theorem threshold_of_limit_sample :
    (∃ name, (Grammar.sample.eliminateLeftRecursion ⟨"'", 3⟩).result =
      .error (.tooManyProductions 3 name)) ∧
    ∃ name, (Grammar.sample.leftFactor ⟨"'", 3⟩).result = .error (.tooManyProductions 3 name) := by
  have hwf := Grammar.reachable_sample.wellFormed
  have hcycle := (cycle?_eq_none_iff hwf).mp (by decide +kernel)
  have hhides := (hiddenRecursion?_eq_none_iff hwf).mp (by decide +kernel)
  have hrule : (⟨⟨⟨1⟩, 0⟩, [⟨⟨1⟩, 0⟩, ⟨⟨1⟩, 1⟩]⟩ : Rule) ∈ Grammar.sample.system.rules := by
    decide +kernel
  have heliminated : (Grammar.sample.eliminateLeftRecursion ⟨"'", 4⟩).result =
      .ok [⟨⟨1⟩, 3⟩] ∧
      (Grammar.sample.eliminateLeftRecursion ⟨"'", 4⟩).grammar.productions.length = 4 := by
    decide +kernel
  have hok : (Grammar.sample.leftFactor ⟨"'", 4⟩).result = .ok [⟨⟨1⟩, 3⟩] :=
    Factoring.leftFactor_of_within (n := 4) (f := (·.result)) (by decide +kernel)
  have hlength : (Grammar.sample.leftFactor ⟨"'", 4⟩).grammar.productions.length = 4 :=
    Factoring.leftFactor_of_within (n := 4) (f := (·.grammar.productions.length))
      (by decide +kernel)
  obtain ⟨-, heliminate, hunchanged, hfactor⟩ :=
    threshold_of_limit Grammar.reachable_sample "'"
  refine ⟨(heliminate hcycle hhides ⟨_, _, .of_mem hrule⟩).stops heliminated.1 ?_,
    (hfactor fun hfactored => ?_).stops hok ?_⟩
  · rw [heliminated.2]
    decide
  · have hnil := (hunchanged hfactored 4).1
    rw [hok] at hnil
    cases hnil
  · rw [hlength]
    decide

end TopDown.Transform
