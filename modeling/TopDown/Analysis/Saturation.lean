import TopDown.SymbolSet

/-!
# Saturation

Saturation carries a property of right-hand sides over to left-hand sides until nothing changes.
In mode `all` a rule fires when its right-hand side is not empty and every symbol on it has the
property, in mode `any` when some symbol on it has it.

* `RuleSystem.saturate` inserts left-hand sides of firing rules, one at a time, as long as one is
  missing. Each insertion lowers the number of absent symbols, so this ends; the result is the
  least set above the given one that is closed under the rules with a left-hand side it spans.
* `RuleSystem.contains_saturate`, `contains_lhs_of_fires` and `saturate_induction` say that: it is
  above the given set, closed, and holds nothing that the rules do not force.
* `RuleSystem.escapes` tells that some rule fires whose left-hand side has no bit in the set, and
  `RuleSystem.saturate?` refuses that case.
-/

namespace TopDown

/-- Which symbols of a right-hand side must have a property for the left-hand side to get it. -/
inductive Saturation where
  | all
  | any
deriving DecidableEq, Repr

def Saturation.fires (mode : Saturation) (set : SymbolSet) (rule : Rule) : Bool :=
  match mode with
  | .all => !rule.rhs.isEmpty && set.containsAll rule.rhs
  | .any => set.containsAny rule.rhs

namespace RuleSystem

/-- Whether a rule fires whose left-hand side is missing from a set that has a bit for it. -/
def isPending (mode : Saturation) (set : SymbolSet) (rule : Rule) : Bool :=
  mode.fires set rule && (set.spans rule.lhs && !set.contains rule.lhs)

/-- Inserts the left-hand sides of firing rules until none is missing. -/
def saturate (system : RuleSystem) (mode : Saturation) (set : SymbolSet) : SymbolSet :=
  match _pending : system.rules.find? (isPending mode set) with
  | none => set
  | some rule => system.saturate mode (set.insert rule.lhs)
termination_by set.absent
decreasing_by
  have h := List.find?_some _pending
  simp only [isPending, Bool.and_eq_true, Bool.not_eq_true'] at h
  exact SymbolSet.absent_insert_lt h.2.1 h.2.2

/-- Whether some rule fires whose left-hand side has no bit in a set. -/
def escapes (system : RuleSystem) (mode : Saturation) (set : SymbolSet) : Bool :=
  system.rules.any fun rule => mode.fires set rule && !set.spans rule.lhs

/-- The saturated set, if every left-hand side that belongs into it has a bit. -/
def saturate? (system : RuleSystem) (mode : Saturation) (set : SymbolSet) : Option SymbolSet :=
  let saturated := system.saturate mode set
  if system.escapes mode saturated then none else some saturated

/-! ## The least closed set -/

theorem insert_of_isPending {mode : Saturation} {set : SymbolSet} {rule : Rule}
    (h : isPending mode set rule = true) (s : Symbol) :
    (set.insert rule.lhs).contains s = if s = rule.lhs then true else set.contains s := by
  simp only [isPending, Bool.and_eq_true] at h
  exact SymbolSet.contains_insert h.2.1 s

theorem spans_saturate (system : RuleSystem) (mode : Saturation) (set : SymbolSet) (s : Symbol) :
    (system.saturate mode set).spans s = set.spans s := by
  fun_induction saturate system mode set with
  | case1 => rfl
  | case2 set rule _ ih => rw [ih, SymbolSet.spans_insert]

theorem contains_saturate {system : RuleSystem} {mode : Saturation} {set : SymbolSet} {s : Symbol}
    (h : set.contains s = true) : (system.saturate mode set).contains s = true := by
  fun_induction saturate system mode set with
  | case1 => exact h
  | case2 set rule hrule ih =>
    apply ih
    rw [insert_of_isPending (List.find?_some hrule)]
    split
    · rfl
    · exact h

theorem contains_lhs_of_fires {system : RuleSystem} {mode : Saturation} {set : SymbolSet}
    {rule : Rule} (hmem : rule ∈ system.rules)
    (hfires : mode.fires (system.saturate mode set) rule = true)
    (hspans : set.spans rule.lhs = true) :
    (system.saturate mode set).contains rule.lhs = true := by
  rw [← spans_saturate system mode set] at hspans
  fun_induction saturate system mode set with
  | case1 set hnone =>
    have := List.find?_eq_none.1 hnone rule hmem
    simpa [isPending, hfires, hspans] using this
  | case2 set _ _ ih => exact ih hfires hspans

theorem saturate_induction {system : RuleSystem} {mode : Saturation} {set : SymbolSet}
    {motive : Symbol → Prop} (hset : ∀ s, set.contains s = true → motive s)
    (hrule : ∀ (t : SymbolSet), ∀ rule ∈ system.rules, mode.fires t rule = true →
      (∀ s, t.contains s = true → motive s) → motive rule.lhs) :
    ∀ s, (system.saturate mode set).contains s = true → motive s := by
  fun_induction saturate system mode set with
  | case1 => exact hset
  | case2 set rule hpending ih =>
    apply ih
    intro s hs
    have hfound := List.find?_some hpending
    rw [insert_of_isPending hfound] at hs
    split at hs
    · rename_i heq
      rw [heq]
      simp only [isPending, Bool.and_eq_true] at hfound
      exact hrule set rule (List.mem_of_find?_eq_some hpending) hfound.1 hset
    · exact hset s hs

end RuleSystem

end TopDown
