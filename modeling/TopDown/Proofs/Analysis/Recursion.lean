import Mathlib.Order.Bounds.Basic
import TopDown.Proofs.Analysis.Exactness

/-!
# The left recursion of a rule system

* `HidesAt` is hidden recursion at a position of a rule, and `Recurs` the kinds of recursion of a
  rule, in terms of derivations.
* `hiddenCorner?_eq_some_iff`: the search on a rule finds the first position that hides recursion.
* `recursion?_eq_some_iff`: the classifier of a single rule is exact.
* `leftRecursion_exact`: the three views of the analysis, the relation, the classifier and the
  search, are exact, and so they agree.
-/

namespace TopDown

open Relation

variable {rules : List Rule} {a b : Symbol} {rule : Rule} {k : Nat}

/-! ## Kinds of recursion -/

/-- Behind a beginning that is not empty and derives the empty string, at position `k`, the rule
has a symbol that derives a string with the left-hand side in front. -/
def HidesAt (rules : List Rule) (r : Rule) (k : Nat) : Prop :=
  0 < k ∧ Derives rules (r.rhs.take k) [] ∧
    ∃ x, r.rhs[k]? = some x ∧ ∃ γ, Derives rules [x] (r.lhs :: γ)

/-- The first symbol of the rule derives, in one step or more, a string with the left-hand side in
front. -/
def LeadsBack (rules : List Rule) (r : Rule) : Prop :=
  ∃ x, r.rhs.head? = some x ∧ ∃ γ, DerivesPlus rules [x] (r.lhs :: γ)

/-- The ways in which a rule recurs on the left. They exclude each other. -/
def Recurs (rules : List Rule) (r : Rule) : Recursion → Prop
  | .direct => r.rhs.head? = some r.lhs
  | .indirect => r.rhs.head? ≠ some r.lhs ∧ LeadsBack rules r
  | .hidden => r.rhs.head? ≠ some r.lhs ∧ ¬LeadsBack rules r ∧ ∃ k, HidesAt rules r k

theorem leadsBack_iff : LeadsBack rules rule ↔
    ∃ x, rule.rhs.head? = some x ∧ TransGen (Corner rules) x rule.lhs := by
  simp only [LeadsBack, derivesPlus_cons_iff]

theorem hidesAt_iff : HidesAt rules rule k ↔ 0 < k ∧ AllVanish rules (rule.rhs.take k) ∧
    ∃ x, rule.rhs[k]? = some x ∧ ReflTransGen (Corner rules) x rule.lhs := by
  simp only [HidesAt, derives_nil_iff, derives_cons_iff]

/-- A rule hides recursion at some position or at none. -/
theorem hides_iff_exists_hidesAt : Hides rules rule ↔ ∃ k, HidesAt rules rule k := by
  constructor
  · rintro ⟨α, x, β, hsplit, hne, hα, hx⟩
    refine ⟨α.length, List.length_pos_iff.mpr hne, ?_, x, ?_, hx⟩
    · rw [hsplit, List.take_left]
      exact hα
    · rw [hsplit, List.getElem?_append_right (Nat.le_refl _), Nat.sub_self]
      rfl
  · rintro ⟨k, hk, hα, x, hget, hx⟩
    obtain ⟨hlt, rfl⟩ := List.getElem?_eq_some_iff.mp hget
    refine ⟨rule.rhs.take k, _, rule.rhs.drop (k + 1), ?_, ?_, hα, hx⟩
    · rw [← List.drop_eq_getElem_cons hlt, List.take_append_drop]
    · rw [← List.length_pos_iff, List.length_take]
      omega

/-! ## The search for a hidden corner -/

namespace CornerAnalysis

variable {analysis : CornerAnalysis} {lhs : Symbol}

/-- What is found is the first symbol that reaches the left-hand side, and all before it vanish. -/
theorem of_hiddenCornerBehind?_eq_some {position : Nat} {before : Symbol} {rest : List Symbol}
    (hk : analysis.hiddenCornerBehind? lhs position before rest = some k) :
    ∃ i, k = position + i ∧ (∀ s ∈ before :: rest.take i, analysis.nullable.contains s = true) ∧
      (∃ x, rest[i]? = some x ∧ analysis.reaches x lhs = true) ∧
      ∀ j < i, ∀ x, rest[j]? = some x → analysis.reaches x lhs = false := by
  induction rest generalizing position before with
  | nil => cases hk
  | cons t rest ih =>
      rw [hiddenCornerBehind?] at hk
      split at hk
      · cases hk
      · rename_i hbefore
        have hbefore : analysis.nullable.contains before = true := by simpa using hbefore
        split at hk
        · rename_i hreach
          cases hk
          exact ⟨0, rfl, by simpa using hbefore, ⟨t, rfl, hreach⟩, fun j hj => by omega⟩
        · rename_i hreach
          obtain ⟨i, rfl, hall, hfound, hfirst⟩ := ih hk
          refine ⟨i + 1, by omega, List.forall_mem_cons.mpr ⟨hbefore, hall⟩, hfound, ?_⟩
          intro j hj x hx
          cases j with
          | zero =>
              cases hx
              exact Bool.eq_false_iff.mpr hreach
          | succ j => exact hfirst j (Nat.lt_of_succ_lt_succ hj) x hx

theorem of_hiddenCorner?_eq_some (hk : analysis.hiddenCorner? rule = some k) :
    0 < k ∧ (∀ s ∈ rule.rhs.take k, analysis.nullable.contains s = true) ∧
      (∃ x, rule.rhs[k]? = some x ∧ analysis.reaches x rule.lhs = true) ∧
      ∀ j, 0 < j → j < k → ∀ x, rule.rhs[j]? = some x → analysis.reaches x rule.lhs = false := by
  unfold hiddenCorner? at hk
  split at hk
  · cases hk
  · rename_i s rest hrhs
    obtain ⟨i, rfl, hall, hfound, hfirst⟩ := of_hiddenCornerBehind?_eq_some hk
    rw [hrhs, Nat.add_comm 1 i]
    refine ⟨Nat.succ_pos i, hall, hfound, fun j hj hlt x hx => ?_⟩
    cases j with
    | zero => exact absurd hj (Nat.lt_irrefl 0)
    | succ j => exact hfirst j (Nat.lt_of_succ_lt_succ hlt) x hx

end CornerAnalysis

/-! ## The analysis -/

namespace RuleSystem

variable {system : RuleSystem}

theorem hidesAt_of_hiddenCorner? (h : system.isScoped = true)
    (hk : system.leftRecursion.hiddenCorner? rule = some k) :
    IsLeast {k | HidesAt system.rules rule k} k := by
  obtain ⟨hpos, hall, ⟨x, hx, hreach⟩, hfirst⟩ := CornerAnalysis.of_hiddenCorner?_eq_some hk
  constructor
  · refine hidesAt_iff.mpr ⟨hpos, (forall_contains_nullable_iff h).mp hall, x, hx, ?_⟩
    exact (reaches_iff h).mp hreach
  · intro j hj
    obtain ⟨hj, -, y, hy, hback⟩ := hidesAt_iff.mp hj
    by_contra hlt
    have hnot := hfirst j hj (Nat.lt_of_not_le hlt) y hy
    rw [(reaches_iff h).mpr hback] at hnot
    cases hnot

/-- **The search is exact.** It finds the first position at which the rule hides recursion. -/
theorem hiddenCorner?_eq_some_iff (h : system.isScoped = true) :
    system.leftRecursion.hiddenCorner? rule = some k ↔
      IsLeast {k | HidesAt system.rules rule k} k := by
  refine ⟨hidesAt_of_hiddenCorner? h, fun hleast => ?_⟩
  have hhides : Hides system.rules rule := hides_iff_exists_hidesAt.mpr ⟨k, hleast.1⟩
  obtain ⟨j, hj⟩ := Option.isSome_iff_exists.mp ((isSome_hiddenCorner?_iff h).mpr hhides)
  rw [hj, (hidesAt_of_hiddenCorner? h hj).unique hleast]

theorem any_head?_holds_iff (h : system.isScoped = true) :
    rule.rhs.head?.any (system.leftRecursion.corners.holds · rule.lhs) = true ↔
      LeadsBack system.rules rule := by
  rw [Option.any_eq_true, leadsBack_iff]
  simp only [← holds_vanishingCorners_iff h]
  rfl

/-- **The classifier of a single rule is exact.** -/
theorem recursion?_eq_some_iff (h : system.isScoped = true) {kind : Recursion} :
    system.leftRecursion.recursion? rule = some kind ↔ Recurs system.rules rule kind := by
  have hback : rule.rhs.head?.any (system.leftRecursion.corners.holds · rule.lhs) = true ↔
      LeadsBack system.rules rule := any_head?_holds_iff h
  have hhides : (system.leftRecursion.hiddenCorner? rule).isSome = true ↔
      ∃ k, HidesAt system.rules rule k :=
    (isSome_hiddenCorner?_iff h).trans hides_iff_exists_hidesAt
  unfold CornerAnalysis.recursion? Rule.isLeftRecursive
  by_cases hdirect : rule.rhs.head? = some rule.lhs
  · cases kind <;> simp [Recurs, hdirect]
  · by_cases hlead : LeadsBack system.rules rule
    · cases kind <;> simp [Recurs, hdirect, hlead, hback.mpr hlead]
    · have hnot := Bool.eq_false_iff.mpr (mt hback.mp hlead)
      cases kind <;> simp [Recurs, hdirect, hlead, hnot, ← hhides, Option.isSome_iff_exists]

theorem mem_classified_iff (h : system.isScoped = true) {kind : Recursion} :
    (rule, kind) ∈ system.leftRecursion.classified ↔
      rule ∈ system.rules ∧ Recurs system.rules rule kind := by
  simp only [CornerAnalysis.classified, List.mem_filterMap, Option.map_eq_some_iff,
    Prod.mk.injEq, ← recursion?_eq_some_iff h]
  constructor
  · rintro ⟨r, hr, _, hkind, rfl, rfl⟩
    exact ⟨hr, hkind⟩
  · rintro ⟨hr, hkind⟩
    exact ⟨rule, hr, kind, hkind, rfl, rfl⟩

/-- The rules that recur have the left-recursive symbols on their left-hand sides. -/
theorem mem_map_classified_iff (h : system.isScoped = true) :
    a ∈ system.leftRecursion.classified.map (·.1.lhs) ↔
      a ∈ system.leftRecursion.leftRecursive := by
  rw [mem_leftRecursive_iff h, ← exists_isSome_recursion?_iff_leftRecursive h]
  simp only [CornerAnalysis.classified, List.mem_map, List.mem_filterMap, Option.map_eq_some_iff,
    Option.isSome_iff_exists]
  constructor
  · rintro ⟨_, ⟨r, hr, kind, hkind, rfl⟩, rfl⟩
    exact ⟨r, hr, rfl, kind, hkind⟩
  · rintro ⟨r, hr, rfl, kind, hkind⟩
    exact ⟨(r, kind), ⟨r, hr, kind, hkind, rfl⟩, rfl⟩

/-- **The analysis of left recursion is exact.** The relation tells which symbols come first in
strings that a symbol derives in one step or more. The left-recursive symbols are those that come
first in strings they derive, in creation order and each once. A rule is classified by the way in
which it recurs, and the search finds the first position at which it hides recursion. So the
left-hand sides of the rules that recur are the left-recursive symbols, and there are such symbols
if and only if there are such rules. -/
theorem leftRecursion_exact (h : system.isScoped = true) :
    (∀ a b, system.spans a = true → system.spans b = true →
      ((system.vanishingCorners system.nullable).holds a b = true ↔
        ∃ γ, DerivesPlus system.rules [a] (b :: γ))) ∧
    system.leftRecursion.leftRecursive.Pairwise (·.index < ·.index) ∧
    (∀ a, a ∈ system.leftRecursion.leftRecursive ↔
      system.spans a = true ∧ LeftRecursive system.rules a) ∧
    (∀ rule kind, system.leftRecursion.recursion? rule = some kind ↔
      Recurs system.rules rule kind) ∧
    (∀ rule k, system.leftRecursion.hiddenCorner? rule = some k ↔
      IsLeast {k | HidesAt system.rules rule k} k) ∧
    (∀ rule kind, (rule, kind) ∈ system.leftRecursion.classified ↔
      rule ∈ system.rules ∧ Recurs system.rules rule kind) ∧
    (∀ a, a ∈ system.leftRecursion.classified.map (·.1.lhs) ↔
      a ∈ system.leftRecursion.leftRecursive) ∧
    (system.leftRecursion.hasLeftRecursion = true ↔ system.leftRecursion.classified ≠ []) := by
  have hlhs := fun a => mem_map_classified_iff (a := a) h
  refine ⟨fun a b _ _ => ?_, SymbolRelation.pairwise_diagonal, fun a => ?_,
    fun _ _ => recursion?_eq_some_iff h, fun _ _ => hiddenCorner?_eq_some_iff h,
    fun _ _ => mem_classified_iff h, hlhs, ?_⟩
  · rw [holds_vanishingCorners_iff h, derivesPlus_cons_iff]
  · rw [mem_leftRecursive_iff h, iff_and_self]
    rintro ⟨γ, hγ⟩
    obtain ⟨r, hr, rfl, -⟩ := hγ.first_rule
    exact (isScoped_iff.mp h r hr).1
  · rw [ne_eq, classified_eq_nil_iff h, ← hasLeftRecursion_eq_false_iff h, Bool.not_eq_false]

/-- `A → A a` recurs directly and `A → B` indirectly. `B → N A` hides recursion behind `N`, which
derives the empty string. -/
theorem leftRecursion_exact_sample :
    let symbol : Nat → Symbol := Symbol.mk ⟨1⟩
    let direct : Rule := ⟨symbol 0, [symbol 0, symbol 3]⟩
    let indirect : Rule := ⟨symbol 0, [symbol 1]⟩
    let hidden : Rule := ⟨symbol 1, [symbol 2, symbol 0]⟩
    let system : RuleSystem := ⟨⟨1⟩, 4, [direct, indirect, hidden, ⟨symbol 2, []⟩]⟩
    system.isScoped = true ∧ system.spans (symbol 0) = true ∧ system.spans (symbol 1) = true ∧
      (∃ γ, DerivesPlus system.rules [symbol 1] (symbol 0 :: γ)) ∧
      Recurs system.rules direct .direct ∧ Recurs system.rules indirect .indirect ∧
      Recurs system.rules hidden .hidden ∧ IsLeast {k | HidesAt system.rules hidden k} 1 ∧
      symbol 1 ∈ system.leftRecursion.classified.map (·.1.lhs) := by
  intro symbol direct indirect hidden system
  have hscoped : system.isScoped = true := by decide
  have hspans : system.spans (symbol 0) = true ∧ system.spans (symbol 1) = true := by decide
  obtain ⟨hcorners, -, -, hrecurs, hleast, -, hlhs, -⟩ := leftRecursion_exact hscoped
  refine ⟨hscoped, hspans.1, hspans.2, (hcorners _ _ hspans.2 hspans.1).mp ?_,
    (hrecurs _ _).mp ?_, (hrecurs _ _).mp ?_, (hrecurs _ _).mp ?_, (hleast _ _).mp ?_,
    (hlhs _).mpr ?_⟩
  all_goals decide +kernel

end RuleSystem

end TopDown
