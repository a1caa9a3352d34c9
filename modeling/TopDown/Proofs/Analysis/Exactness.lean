import TopDown.Analysis.Cycle
import TopDown.Analysis.LeftRecursion
import TopDown.Proofs.Derivation
import TopDown.Proofs.SymbolRelation.Closure

/-!
# The analyses are exact

On rules that use symbols of their own space only, each analysis answers with what its rules
derive.

* `contains_nullable_iff`: the nullable symbols are those that vanish.
* `holds_unitDerivation_iff`, `holds_vanishingCorners_iff`, `holds_leftCorners_iff`: the relations
  are the chains of units, of corners and of first symbols.
* `isSome_hiddenCorner?_iff`, `isSome_recursion?_iff`: what the two classifiers of a single rule
  find, told by splits of its right-hand side.
* `hasLeftRecursion_eq_false_iff`, `classified_eq_nil_iff`: both say that no symbol is
  left-recursive.
-/

namespace TopDown

open Relation

/-! ## Sets of symbols -/

namespace SymbolSet

theorem spans_foldl_insert (symbols : List Symbol) (set : SymbolSet) (s : Symbol) :
    (symbols.foldl insert set).spans s = set.spans s := by
  induction symbols generalizing set with
  | nil => rfl
  | cons t symbols ih => rw [List.foldl_cons, ih, spans_insert]

theorem contains_foldl_insert_iff {symbols : List Symbol} {set : SymbolSet}
    (h : ∀ t ∈ symbols, set.spans t = true) {s : Symbol} :
    (symbols.foldl insert set).contains s = true ↔ set.contains s = true ∨ s ∈ symbols := by
  induction symbols generalizing set with
  | nil => simp
  | cons t symbols ih =>
      have ht := h t List.mem_cons_self
      have hrest : ∀ u ∈ symbols, (set.insert t).spans u = true := by
        intro u hu
        rw [spans_insert]
        exact h u (List.mem_cons_of_mem _ hu)
      rw [List.foldl_cons, ih hrest, contains_insert ht, List.mem_cons]
      by_cases hst : s = t
      · simp [hst]
      · simp [hst]

end SymbolSet

namespace RuleSystem

variable {system : RuleSystem} {a b s : Symbol}

theorem isScoped_iff : system.isScoped = true ↔
    ∀ r ∈ system.rules, system.spans r.lhs = true ∧ ∀ s ∈ r.rhs, system.spans s = true := by
  simp [isScoped]

theorem spans_noSymbols : system.noSymbols.spans s = system.spans s := by
  rw [Bool.eq_iff_iff, SymbolSet.spans_iff, spans, Bool.and_eq_true, decide_eq_true_eq,
    decide_eq_true_eq]
  simp [noSymbols, SymbolSet.replicate]

theorem contains_noSymbols : system.noSymbols.contains s = false := by
  rw [Bool.eq_false_iff, Ne, noSymbols, SymbolSet.contains_replicate]
  simp

/-! ## Nullable symbols -/

theorem vanishing_eq_foldl : system.vanishing =
    ((system.rules.filter (·.rhs.isEmpty)).map (·.lhs)).foldl SymbolSet.insert
      system.noSymbols := by
  rw [List.foldl_map]
  rfl

theorem spans_vanishing : system.vanishing.spans s = system.spans s := by
  rw [vanishing_eq_foldl, SymbolSet.spans_foldl_insert, spans_noSymbols]

theorem contains_vanishing_iff (h : system.isScoped = true) :
    system.vanishing.contains s = true ↔ ∃ r ∈ system.rules, r.lhs = s ∧ r.rhs = [] := by
  rw [vanishing_eq_foldl, SymbolSet.contains_foldl_insert_iff, contains_noSymbols]
  · simp only [Bool.false_eq_true, false_or, List.mem_map, List.mem_filter, List.isEmpty_iff]
    constructor
    · rintro ⟨r, ⟨hr, hnil⟩, rfl⟩
      exact ⟨r, hr, rfl, hnil⟩
    · rintro ⟨r, hr, rfl, hnil⟩
      exact ⟨r, ⟨hr, hnil⟩, rfl⟩
  · intro t ht
    obtain ⟨r, hr, rfl⟩ := List.mem_map.mp ht
    rw [spans_noSymbols]
    exact (isScoped_iff.mp h r (List.mem_filter.mp hr).1).1

/-- **Nullable symbols.** The saturated set holds exactly the symbols that vanish. -/
theorem contains_nullable_iff (h : system.isScoped = true) :
    system.nullable.contains s = true ↔ Vanishes system.rules s := by
  constructor
  · refine saturate_induction ?_ ?_ s
    · intro t ht
      obtain ⟨r, hr, rfl, hnil⟩ := (contains_vanishing_iff h).mp ht
      exact .of_mem hr (hnil ▸ allVanish_nil)
    · intro t r hr hfires ht
      simp only [Saturation.fires, Bool.and_eq_true, SymbolSet.containsAll, List.all_eq_true]
        at hfires
      exact .of_mem hr fun u hu => ht u (hfires.2 u hu)
  · intro hs
    induction hs with
    | @rule r hr _ ih =>
        by_cases hnil : r.rhs = []
        · exact contains_saturate ((contains_vanishing_iff h).mpr ⟨r, hr, rfl, hnil⟩)
        · refine contains_lhs_of_fires hr ?_ ?_
          · simp only [Saturation.fires, Bool.and_eq_true, SymbolSet.containsAll,
              List.all_eq_true, Bool.not_eq_true', List.isEmpty_eq_false_iff]
            exact ⟨hnil, ih⟩
          · rw [spans_vanishing]
            exact (isScoped_iff.mp h r hr).1

theorem forall_contains_nullable_iff (h : system.isScoped = true) {u : List Symbol} :
    (∀ s ∈ u, system.nullable.contains s = true) ↔ AllVanish system.rules u := by
  simp only [contains_nullable_iff h, AllVanish]

end RuleSystem

/-! ## Choices from a right-hand side -/

namespace Step

variable {vanishing : SymbolSet} {b : Symbol} {rhs : List Symbol}

theorem mem_first_iff : b ∈ first rhs ↔ rhs.head? = some b := by
  rw [first, List.take_one, Option.mem_toList]

theorem mem_corners_iff : b ∈ corners vanishing rhs ↔
    ∃ α β, rhs = α ++ b :: β ∧ ∀ s ∈ α, vanishing.contains s = true := by
  induction rhs with
  | nil => simp [corners]
  | cons t rhs ih =>
      constructor
      · intro h
        rcases List.mem_cons.mp h with rfl | h
        · exact ⟨[], rhs, rfl, by simp⟩
        · split at h
          · rename_i ht
            obtain ⟨α, β, rfl, hα⟩ := ih.mp h
            exact ⟨t :: α, β, rfl, by simpa [ht] using hα⟩
          · cases h
      · rintro ⟨α, β, hsplit, hα⟩
        rcases List.cons_eq_append_iff.mp hsplit with ⟨rfl, hb⟩ | ⟨α, rfl, rfl⟩
        · exact List.mem_cons.mpr (Or.inl (List.cons_eq_cons.mp hb).1)
        · have ht := hα t List.mem_cons_self
          rw [corners, if_pos ht]
          refine List.mem_cons_of_mem _ (ih.mpr ⟨α, β, rfl, ?_⟩)
          exact fun s hs => hα s (List.mem_cons_of_mem _ hs)

theorem mem_alone_iff : b ∈ alone vanishing rhs ↔
    ∃ α β, rhs = α ++ b :: β ∧ (∀ s ∈ α, vanishing.contains s = true) ∧
      ∀ s ∈ β, vanishing.contains s = true := by
  induction rhs with
  | nil => simp [alone]
  | cons t rhs ih =>
      rw [alone, List.mem_append]
      constructor
      · rintro (h | h)
        · split at h
          · rename_i hrhs
            rw [List.mem_singleton.mp h]
            exact ⟨[], rhs, rfl, by simp, by simpa [SymbolSet.containsAll] using hrhs⟩
          · cases h
        · split at h
          · rename_i ht
            obtain ⟨α, β, rfl, hα, hβ⟩ := ih.mp h
            exact ⟨t :: α, β, rfl, by simpa [ht] using hα, hβ⟩
          · cases h
      · rintro ⟨α, β, hsplit, hα, hβ⟩
        rcases List.cons_eq_append_iff.mp hsplit with ⟨rfl, hb⟩ | ⟨α, rfl, rfl⟩
        · obtain ⟨rfl, rfl⟩ := List.cons_eq_cons.mp hb
          refine Or.inl ?_
          rw [if_pos (by simpa [SymbolSet.containsAll] using hβ)]
          exact List.mem_cons_self
        · refine Or.inr ?_
          rw [if_pos (hα t List.mem_cons_self)]
          exact ih.mpr ⟨α, β, rfl, fun s hs => hα s (List.mem_cons_of_mem _ hs), hβ⟩

end Step

/-! ## Relations -/

theorem SymbolRelation.spans_link {r : SymbolRelation} {a b s : Symbol} :
    (r.link a b).spans s = r.spans s := by
  unfold link
  split <;> rfl

theorem SymbolRelation.holds_foldl_link_iff {pairs : List (Symbol × Symbol)}
    {r : SymbolRelation} (h : ∀ p ∈ pairs, r.spans p.1 = true ∧ r.spans p.2 = true)
    {a b : Symbol} :
    (pairs.foldl (fun r p => r.link p.1 p.2) r).holds a b = true ↔
      r.holds a b = true ∨ (a, b) ∈ pairs := by
  induction pairs generalizing r with
  | nil => simp
  | cons p pairs ih =>
      obtain ⟨h₁, h₂⟩ := h p List.mem_cons_self
      have hrest : ∀ q ∈ pairs,
          (r.link p.1 p.2).spans q.1 = true ∧ (r.link p.1 p.2).spans q.2 = true := by
        intro q hq
        rw [spans_link, spans_link]
        exact h q (List.mem_cons_of_mem _ hq)
      rw [List.foldl_cons, ih hrest, holds_link h₁ h₂, List.mem_cons]
      by_cases hp : (a, b) = p
      · simp [← hp]
      · have hne : ¬(a = p.1 ∧ b = p.2) := fun hab => hp (Prod.ext hab.1 hab.2)
        simp [hp, hne]

namespace RuleSystem

variable {system : RuleSystem} {a b s : Symbol}

theorem holds_relate_iff (h : system.isScoped = true) {choose : List Symbol → List Symbol}
    (hchoose : ∀ rhs, choose rhs ⊆ rhs) :
    (system.relate choose).holds a b = true ↔
      ∃ r ∈ system.rules, r.lhs = a ∧ b ∈ choose r.rhs := by
  rw [relate, SymbolRelation.holds_foldl_link_iff, SymbolRelation.holds_empty]
  · simp only [Bool.false_eq_true, false_or, List.mem_flatMap, List.mem_map, Prod.mk.injEq]
    constructor
    · rintro ⟨r, hr, c, hc, rfl, rfl⟩
      exact ⟨r, hr, rfl, hc⟩
    · rintro ⟨r, hr, rfl, hb⟩
      exact ⟨r, hr, b, hb, rfl, rfl⟩
  · intro p hp
    obtain ⟨r, hr, hp⟩ := List.mem_flatMap.mp hp
    obtain ⟨c, hc, rfl⟩ := List.mem_map.mp hp
    obtain ⟨hlhs, hrhs⟩ := isScoped_iff.mp h r hr
    exact ⟨hlhs, hrhs c (hchoose r.rhs hc)⟩

/-- Before the closure, the nullable-aware corners are single corner steps. -/
theorem holds_relate_corners_iff (h : system.isScoped = true) :
    (system.relate (Step.corners system.nullable)).holds a b = true ↔
      Corner system.rules a b := by
  rw [holds_relate_iff h]
  · simp only [Step.mem_corners_iff, forall_contains_nullable_iff h, Corner, Leads, and_true]
  · intro rhs b hb
    obtain ⟨α, β, rfl, -⟩ := Step.mem_corners_iff.mp hb
    simp

theorem holds_relate_alone_iff (h : system.isScoped = true) :
    (system.relate (Step.alone system.nullable)).holds a b = true ↔
      UnitStep system.rules a b := by
  rw [holds_relate_iff h]
  · simp only [Step.mem_alone_iff, forall_contains_nullable_iff h, UnitStep, Leads]
  · intro rhs b hb
    obtain ⟨α, β, rfl, -⟩ := Step.mem_alone_iff.mp hb
    simp

theorem holds_relate_first_iff (h : system.isScoped = true) :
    (system.relate Step.first).holds a b = true ↔ Fronts system.rules a b := by
  rw [holds_relate_iff h]
  · simp only [Step.mem_first_iff, Fronts]
  · exact fun rhs => List.take_subset 1 rhs

theorem holds_leftCorners_iff (h : system.isScoped = true) :
    system.leftCorners.holds a b = true ↔ TransGen (Fronts system.rules) a b := by
  rw [leftCorners, SymbolRelation.holds_transitiveClosure_iff]
  simp only [holds_relate_first_iff h]

theorem holds_vanishingCorners_iff (h : system.isScoped = true) :
    (system.vanishingCorners system.nullable).holds a b = true ↔
      TransGen (Corner system.rules) a b := by
  rw [vanishingCorners, SymbolRelation.holds_transitiveClosure_iff]
  simp only [holds_relate_corners_iff h]

theorem holds_unitDerivation_iff (h : system.isScoped = true) :
    (system.unitDerivation system.nullable).holds a b = true ↔
      TransGen (UnitStep system.rules) a b := by
  rw [unitDerivation, SymbolRelation.holds_transitiveClosure_iff]
  simp only [holds_relate_alone_iff h]

/-- **Cyclic symbols** are those that derive themselves alone. -/
theorem mem_cyclic_iff (h : system.isScoped = true) :
    s ∈ system.cycles.cyclic ↔ Cyclic system.rules s := by
  rw [Cyclic, derivesPlus_singleton_iff, ← holds_unitDerivation_iff h]
  exact SymbolRelation.mem_diagonal

/-- **Left-recursive symbols** are those that derive a string starting with themselves. -/
theorem mem_leftRecursive_iff (h : system.isScoped = true) :
    s ∈ system.leftRecursion.leftRecursive ↔ LeftRecursive system.rules s := by
  rw [leftRecursive_iff, ← holds_vanishingCorners_iff h]
  exact SymbolRelation.mem_diagonal

theorem reaches_iff (h : system.isScoped = true) :
    system.leftRecursion.reaches a b = true ↔ ReflTransGen (Corner system.rules) a b := by
  rw [CornerAnalysis.reaches, Bool.or_eq_true, decide_eq_true_eq,
    reflTransGen_iff_eq_or_transGen, ← holds_vanishingCorners_iff h, eq_comm]
  rfl

end RuleSystem

/-! ## Single rules -/

namespace CornerAnalysis

variable {analysis : CornerAnalysis} {lhs : Symbol}

theorem isSome_hiddenCornerBehind?_iff {position : Nat} {before : Symbol} {rest : List Symbol} :
    (analysis.hiddenCornerBehind? lhs position before rest).isSome = true ↔
      ∃ α b β, before :: rest = α ++ b :: β ∧ α ≠ [] ∧
        (∀ s ∈ α, analysis.nullable.contains s = true) ∧ analysis.reaches b lhs = true := by
  induction rest generalizing position before with
  | nil =>
      simp only [hiddenCornerBehind?, Option.isSome_none, Bool.false_eq_true, false_iff]
      rintro ⟨α, b, β, hsplit, hne, -⟩
      rcases List.singleton_eq_append_iff.mp hsplit with ⟨rfl, -⟩ | ⟨-, h⟩
      · exact hne rfl
      · cases h
  | cons t rest ih =>
      rw [hiddenCornerBehind?]
      by_cases hbefore : analysis.nullable.contains before = true
      · rw [if_neg (by simp [hbefore])]
        split
        · rename_i hreach
          simp only [Option.isSome_some, true_iff]
          exact ⟨[before], t, rest, rfl, by simp, by simpa using hbefore, hreach⟩
        · rename_i hreach
          rw [ih]
          -- `t` does not lead back, so what is hidden behind `before` is hidden behind `t` as well.
          constructor
          · rintro ⟨α, b, β, hsplit, -, hα, hb⟩
            refine ⟨before :: α, b, β, by rw [hsplit]; rfl, by simp, ?_, hb⟩
            simpa [hbefore] using hα
          · rintro ⟨α, b, β, hsplit, hne, hα, hb⟩
            obtain ⟨s, α, rfl⟩ := List.exists_cons_of_ne_nil hne
            have htail := (List.cons_eq_cons.mp hsplit).2
            refine ⟨α, b, β, htail, ?_, fun s hs => hα s (List.mem_cons_of_mem _ hs), hb⟩
            rintro rfl
            rw [(List.cons_eq_cons.mp htail).1] at hreach
            exact hreach hb
      · rw [if_pos (by simpa using hbefore)]
        simp only [Option.isSome_none, Bool.false_eq_true, false_iff]
        rintro ⟨α, b, β, hsplit, hne, hα, -⟩
        obtain ⟨s, α, rfl⟩ := List.exists_cons_of_ne_nil hne
        obtain ⟨rfl, -⟩ := List.cons_eq_cons.mp hsplit
        exact hbefore (hα _ List.mem_cons_self)

theorem isSome_hiddenCorner?_iff {rule : Rule} :
    (analysis.hiddenCorner? rule).isSome = true ↔
      ∃ α b β, rule.rhs = α ++ b :: β ∧ α ≠ [] ∧
        (∀ s ∈ α, analysis.nullable.contains s = true) ∧
        analysis.reaches b rule.lhs = true := by
  unfold hiddenCorner?
  split
  · rename_i hnil
    simp [hnil]
  · rename_i s rest hcons
    rw [isSome_hiddenCornerBehind?_iff, hcons]

end CornerAnalysis

namespace RuleSystem

variable {system : RuleSystem} {rule : Rule} {a : Symbol}

theorem isSome_hiddenCorner?_iff (h : system.isScoped = true) :
    (system.leftRecursion.hiddenCorner? rule).isSome = true ↔ Hides system.rules rule := by
  rw [CornerAnalysis.isSome_hiddenCorner?_iff, hides_iff]
  simp only [reaches_iff h]
  exact exists_congr fun α => exists_congr fun b => exists_congr fun β => by
    rw [← forall_contains_nullable_iff h]
    rfl

theorem isSome_recursion?_eq (analysis : CornerAnalysis) (rule : Rule) :
    (analysis.recursion? rule).isSome =
      (rule.rhs.head?.any (analysis.reaches · rule.lhs) ||
        (analysis.hiddenCorner? rule).isSome) := by
  unfold CornerAnalysis.recursion? Rule.isLeftRecursive CornerAnalysis.reaches
  cases rule.rhs.head? with
  | none => simp
  | some b =>
      by_cases hb : b = rule.lhs
      · simp [hb]
      · by_cases hc : analysis.corners.holds b rule.lhs = true
        · simp [hb, hc]
        · simp [hb, hc]

/-- **Left-recursive rules.** The classifier finds a kind of recursion exactly if some corner of
the rule leads back to its left-hand side. -/
theorem isSome_recursion?_iff (h : system.isScoped = true) :
    (system.leftRecursion.recursion? rule).isSome = true ↔
      ∃ α b β, rule.rhs = α ++ b :: β ∧ AllVanish system.rules α ∧
        ReflTransGen (Corner system.rules) b rule.lhs := by
  rw [isSome_recursion?_eq, Bool.or_eq_true, isSome_hiddenCorner?_iff h, hides_iff]
  constructor
  · rintro (hfirst | ⟨α, b, β, hsplit, -, hα, hb⟩)
    · obtain ⟨b, hb, hreach⟩ := (Option.any_eq_true ..).mp hfirst
      obtain ⟨β, hβ⟩ := List.head?_eq_some_iff.mp hb
      exact ⟨[], b, β, hβ, allVanish_nil, (reaches_iff h).mp hreach⟩
    · exact ⟨α, b, β, hsplit, hα, hb⟩
  · rintro ⟨α, b, β, hsplit, hα, hb⟩
    by_cases hnil : α = []
    · subst hnil
      refine Or.inl ?_
      rw [hsplit]
      exact (reaches_iff h).mpr hb
    · exact Or.inr ⟨α, b, β, hsplit, hnil, hα, hb⟩

/-- A symbol is left-recursive exactly if one of its rules is found to be. -/
theorem exists_isSome_recursion?_iff_leftRecursive (h : system.isScoped = true) :
    (∃ r ∈ system.rules, r.lhs = a ∧ (system.leftRecursion.recursion? r).isSome = true) ↔
      LeftRecursive system.rules a := by
  simp only [isSome_recursion?_iff h, leftRecursive_iff]
  constructor
  · rintro ⟨r, hr, rfl, α, b, β, hsplit, hα, hb⟩
    exact .head' ⟨r, hr, rfl, α, β, hsplit, hα, trivial⟩ hb
  · intro ha
    obtain ⟨b, ⟨r, hr, rfl, α, β, hsplit, hα, -⟩, hb⟩ := TransGen.head'_iff.mp ha
    exact ⟨r, hr, rfl, α, b, β, hsplit, hα, hb⟩

/-- A left-recursive rule is found exactly if some symbol is left-recursive. -/
theorem exists_isSome_recursion?_iff (h : system.isScoped = true) :
    (∃ r ∈ system.rules, (system.leftRecursion.recursion? r).isSome = true) ↔
      ∃ a, LeftRecursive system.rules a := by
  simp only [← exists_isSome_recursion?_iff_leftRecursive h]
  constructor
  · rintro ⟨r, hr, hsome⟩
    exact ⟨r.lhs, r, hr, rfl, hsome⟩
  · rintro ⟨_, r, hr, -, hsome⟩
    exact ⟨r, hr, hsome⟩

theorem hasLeftRecursion_eq_false_iff (h : system.isScoped = true) :
    system.leftRecursion.hasLeftRecursion = false ↔ ∀ a, ¬LeftRecursive system.rules a := by
  rw [CornerAnalysis.hasLeftRecursion, Bool.not_eq_false', List.isEmpty_iff,
    List.eq_nil_iff_forall_not_mem]
  simp only [mem_leftRecursive_iff h]

theorem classified_eq_nil_iff (h : system.isScoped = true) :
    system.leftRecursion.classified = [] ↔ ∀ a, ¬LeftRecursive system.rules a := by
  rw [← not_exists, ← exists_isSome_recursion?_iff h, CornerAnalysis.classified,
    List.filterMap_eq_nil_iff]
  simp only [Option.map_eq_none_iff, not_exists, not_and, Bool.not_eq_true,
    Option.isSome_eq_false_iff, Option.isNone_iff_eq_none]
  rfl

end RuleSystem

end TopDown
