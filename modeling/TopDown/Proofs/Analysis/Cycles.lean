import TopDown.Proofs.Analysis.Exactness

/-!
# The cycles of a rule system

* `ClosesCycle` says of a rule what the analysis asks of it, in terms of derivations: it derives a
  symbol alone from which its left-hand side is derived alone.
* `participates_iff`: the test of a single rule is exact.
* `exists_closesCycle_iff`: a symbol derives itself alone if and only if one of its rules closes
  a cycle.
* `cycles_exact`: the two views of the analysis, the relation and the rules, are both exact, and
  so they agree.
-/

namespace TopDown

open Relation

variable {rules : List Rule} {a b : Symbol} {rule : Rule}

/-- The rule has a symbol on its right-hand side, between symbols that derive the empty string,
from which its left-hand side is derived alone. -/
def ClosesCycle (rules : List Rule) (r : Rule) : Prop :=
  ∃ α b γ, r.rhs = α ++ b :: γ ∧ Derives rules α [] ∧ Derives rules γ [] ∧
    Derives rules [b] [r.lhs]

/-- What is derived alone is the symbol itself or the end of a chain of units. -/
theorem derives_singleton_iff : Derives rules [a] [b] ↔ ReflTransGen (UnitStep rules) a b := by
  constructor
  · intro h
    rcases reflTransGen_iff_eq_or_transGen.mp h with heq | h
    · cases heq
      exact .refl
    · exact (derivesPlus_singleton_iff.mp h).to_reflTransGen
  · intro h
    rcases reflTransGen_iff_eq_or_transGen.mp h with rfl | h
    · exact .refl
    · exact (derivesPlus_singleton_iff.mpr h).to_reflTransGen

theorem closesCycle_iff : ClosesCycle rules rule ↔ ∃ α b γ, rule.rhs = α ++ b :: γ ∧
    AllVanish rules α ∧ AllVanish rules γ ∧ ReflTransGen (UnitStep rules) b rule.lhs := by
  simp only [ClosesCycle, derives_nil_iff, derives_singleton_iff]

/-- **A cycle starts with a rule that closes it.** -/
theorem exists_closesCycle_iff :
    (∃ r ∈ rules, r.lhs = a ∧ ClosesCycle rules r) ↔ Cyclic rules a := by
  simp only [closesCycle_iff]
  rw [Cyclic, derivesPlus_singleton_iff, TransGen.head'_iff]
  constructor
  · rintro ⟨r, hr, rfl, α, b, γ, hsplit, hα, hγ, hb⟩
    exact ⟨b, ⟨r, hr, rfl, α, γ, hsplit, hα, hγ⟩, hb⟩
  · rintro ⟨b, ⟨r, hr, rfl, α, γ, hsplit, hα, hγ⟩, hb⟩
    exact ⟨r, hr, rfl, α, b, γ, hsplit, hα, hγ, hb⟩

namespace RuleSystem

variable {system : RuleSystem}

/-- **The test of a single rule is exact.** -/
theorem participates_iff (h : system.isScoped = true) :
    system.cycles.participates rule = true ↔ ClosesCycle system.rules rule := by
  have hreach : ∀ b, (b = rule.lhs ∨ system.cycles.units.holds b rule.lhs = true) ↔
      ReflTransGen (UnitStep system.rules) b rule.lhs := by
    intro b
    rw [reflTransGen_iff_eq_or_transGen, ← holds_unitDerivation_iff h, @eq_comm _ b]
    rfl
  simp only [CycleAnalysis.participates, List.any_eq_true, Bool.or_eq_true, decide_eq_true_eq,
    hreach, closesCycle_iff]
  constructor
  · rintro ⟨b, hb, hback⟩
    obtain ⟨α, γ, hsplit, hα, hγ⟩ := Step.mem_alone_iff.mp hb
    exact ⟨α, b, γ, hsplit, (forall_contains_nullable_iff h).mp hα,
      (forall_contains_nullable_iff h).mp hγ, hback⟩
  · rintro ⟨α, b, γ, hsplit, hα, hγ, hback⟩
    refine ⟨b, Step.mem_alone_iff.mpr ⟨α, γ, hsplit, ?_, ?_⟩, hback⟩
    · exact (forall_contains_nullable_iff h).mpr hα
    · exact (forall_contains_nullable_iff h).mpr hγ

theorem mem_participants_iff (h : system.isScoped = true) :
    rule ∈ system.cycles.participants ↔
      rule ∈ system.rules ∧ ClosesCycle system.rules rule := by
  rw [CycleAnalysis.participants, List.mem_filter, participates_iff h]
  rfl

/-- The rules that close a cycle have the cyclic symbols on their left-hand sides. -/
theorem mem_map_participants_iff (h : system.isScoped = true) :
    a ∈ system.cycles.participants.map (·.lhs) ↔ a ∈ system.cycles.cyclic := by
  rw [mem_cyclic_iff h, ← exists_closesCycle_iff, List.mem_map]
  simp only [mem_participants_iff h]
  constructor
  · rintro ⟨r, ⟨hr, hcloses⟩, hlhs⟩
    exact ⟨r, hr, hlhs, hcloses⟩
  · rintro ⟨r, hr, hlhs, hcloses⟩
    exact ⟨r, ⟨hr, hcloses⟩, hlhs⟩

open scoped Classical in
/-- **The analysis of cycles is exact.** The relation tells which symbols derive which alone, in
one step or more. The cyclic symbols are those that derive themselves alone, in creation order and
each once. The rules that take part in a cycle are, in the order of the rules, those that derive a
symbol alone from which their left-hand side is derived alone. So the left-hand sides of these
rules are the cyclic symbols, and without such a rule there is no cycle. -/
theorem cycles_exact (h : system.isScoped = true) :
    (∀ a b, system.spans a = true → system.spans b = true →
      ((system.unitDerivation system.nullable).holds a b = true ↔
        DerivesPlus system.rules [a] [b])) ∧
    system.cycles.cyclic.Pairwise (·.index < ·.index) ∧ system.cycles.cyclic.Nodup ∧
    (∀ a, a ∈ system.cycles.cyclic ↔ system.spans a = true ∧ Cyclic system.rules a) ∧
    system.cycles.participants =
      system.rules.filter (fun r => decide (ClosesCycle system.rules r)) ∧
    (∀ a, a ∈ system.cycles.participants.map (·.lhs) ↔ a ∈ system.cycles.cyclic) ∧
    (system.cycles.isCycleFree = true ↔ system.cycles.participants = []) := by
  have hsorted : system.cycles.cyclic.Pairwise (·.index < ·.index) :=
    SymbolRelation.pairwise_diagonal
  have hlhs := fun a => mem_map_participants_iff (a := a) h
  refine ⟨fun a b _ _ => ?_, hsorted, Symbol.nodup_of_pairwise hsorted, fun a => ?_, ?_, hlhs, ?_⟩
  · rw [holds_unitDerivation_iff h, derivesPlus_singleton_iff]
  · rw [mem_cyclic_iff h, iff_and_self]
    intro ha
    obtain ⟨r, hr, rfl, -⟩ := DerivesPlus.first_rule ha
    exact (isScoped_iff.mp h r hr).1
  · refine List.filter_congr fun r _ => ?_
    rw [Bool.eq_iff_iff, participates_iff h, decide_eq_true_eq]
  · rw [CycleAnalysis.isCycleFree, List.isEmpty_iff, List.eq_nil_iff_forall_not_mem]
    simp only [← hlhs]
    rw [← List.eq_nil_iff_forall_not_mem, List.map_eq_nil_iff]

/-- Of `A → N B N`, `B → A`, `N → ε` and `A → N` the first two rules close a cycle. -/
theorem cycles_exact_sample :
    let symbol : Nat → Symbol := Symbol.mk ⟨1⟩
    let system : RuleSystem := ⟨⟨1⟩, 3, [⟨symbol 0, [symbol 2, symbol 1, symbol 2]⟩,
      ⟨symbol 1, [symbol 0]⟩, ⟨symbol 2, []⟩, ⟨symbol 0, [symbol 2]⟩]⟩
    system.isScoped = true ∧ system.spans (symbol 0) = true ∧ system.spans (symbol 1) = true ∧
      DerivesPlus system.rules [symbol 0] [symbol 1] ∧
      system.cycles.participants.map (·.lhs) = [symbol 0, symbol 1] ∧
      symbol 1 ∈ system.cycles.cyclic := by
  intro symbol system
  have hscoped : system.isScoped = true := by decide
  have hspans : system.spans (symbol 0) = true ∧ system.spans (symbol 1) = true := by decide
  have hmap : system.cycles.participants.map (·.lhs) = [symbol 0, symbol 1] := by decide +kernel
  obtain ⟨hunits, -, -, -, -, hlhs, -⟩ := cycles_exact hscoped
  refine ⟨hscoped, hspans.1, hspans.2, (hunits _ _ hspans.1 hspans.2).mp ?_, hmap, ?_⟩
  · decide +kernel
  · rw [← hlhs, hmap]
    decide

end RuleSystem

end TopDown
