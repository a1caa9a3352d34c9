import Mathlib.Order.Bounds.Basic
import TopDown.Analysis.Propagation
import TopDown.Proofs.Analysis.Exactness

/-!
# Saturation is the least closed set

* `Occurrence.stretch_eq_filter`: in a list that is in order, the stretch of a symbol holds all of
  its occurrences.
* `Propagation.Underway` is the invariant of a propagation. A rule that fires and whose left-hand
  side is missing has a symbol on the stack, or an occurrence that is about to be visited.
* `RuleSystem.propagate?_eq_saturate?`: propagation and saturation answer alike, also where they
  have no answer.
* `RuleSystem.isLeast_saturate`: the saturated set is the least closed set above the given one.
* `RuleSystem.nullable_exact`: the nullable symbols are those that derive the empty string, and
  every set over the symbol space has a least closed set above it, which propagation finds.
-/

namespace TopDown

/-! ## Closed sets of symbols -/

namespace Saturation

/-- What a rule asks of its right-hand side, in terms of any set of symbols. -/
def Asks (mode : Saturation) (S : Set Symbol) (r : Rule) : Prop :=
  match mode with
  | .all => r.rhs ≠ [] ∧ ∀ s ∈ r.rhs, s ∈ S
  | .any => ∃ s ∈ r.rhs, s ∈ S

/-- A set holds the left-hand side of every rule that gets what it asks. -/
def Closed (mode : Saturation) (rules : List Rule) (S : Set Symbol) : Prop :=
  ∀ r ∈ rules, mode.Asks S r → r.lhs ∈ S

variable {mode : Saturation} {S T : Set Symbol} {rule : Rule}

theorem Asks.mono (h : mode.Asks S rule) (hST : S ⊆ T) : mode.Asks T rule := by
  cases mode with
  | all => exact ⟨h.1, fun s hs => hST (h.2 s hs)⟩
  | any =>
      obtain ⟨s, hs, hmem⟩ := h
      exact ⟨s, hs, hST hmem⟩

/-- A rule that asks for nothing it did not get before asks for the symbol that is new. -/
theorem Asks.mem_or {s : Symbol} (h : mode.Asks T rule) (hT : ∀ t ∈ T, t = s ∨ t ∈ S) :
    s ∈ rule.rhs ∨ mode.Asks S rule := by
  by_cases hs : s ∈ rule.rhs
  · exact Or.inl hs
  · have hold : ∀ t ∈ rule.rhs, t ∈ T → t ∈ S := by
      intro t ht hmem
      refine (hT t hmem).resolve_left ?_
      rintro rfl
      exact hs ht
    cases mode with
    | all => exact Or.inr ⟨h.1, fun t ht => hold t ht (h.2 t ht)⟩
    | any =>
        obtain ⟨t, ht, hmem⟩ := h
        exact Or.inr ⟨t, ht, hold t ht hmem⟩

theorem Asks.exists_mem (h : mode.Asks S rule) : ∃ s ∈ rule.rhs, s ∈ S := by
  cases mode with
  | all =>
      obtain ⟨s, hs⟩ := List.exists_mem_of_ne_nil _ h.1
      exact ⟨s, hs, h.2 s hs⟩
  | any => exact h

end Saturation

namespace SymbolSet

def carrier (set : SymbolSet) : Set Symbol := {s | set.contains s = true}

variable {set other : SymbolSet} {s : Symbol}

theorem mem_carrier : s ∈ set.carrier ↔ set.contains s = true := Iff.rfl

theorem fires_iff {mode : Saturation} {rule : Rule} :
    mode.fires set rule = true ↔ mode.Asks set.carrier rule := by
  cases mode with
  | all => simp [Saturation.fires, Saturation.Asks, containsAll, mem_carrier]
  | any => simp [Saturation.fires, Saturation.Asks, containsAny, mem_carrier]

theorem contains_mk (owner : Identity) {bits : Array Bool} {i : Nat} (hi : i < bits.size) :
    contains ⟨owner, bits⟩ ⟨owner, i⟩ = bits[i] := by
  simp [contains, hi]

/-- Sets over one symbol space are equal if they have the same members. -/
theorem eq_of_carrier (howner : set.owner = other.owner) (hsize : set.size = other.size)
    (h : set.carrier = other.carrier) : set = other := by
  obtain ⟨owner, bits⟩ := set
  obtain ⟨owner', bits'⟩ := other
  cases howner
  congr 1
  refine Array.ext hsize fun i hi hi' => ?_
  rw [← contains_mk owner hi, ← contains_mk owner hi', Bool.eq_iff_iff]
  exact Set.ext_iff.mp h _

structure SameSpace (set other : SymbolSet) : Prop where
  owner : set.owner = other.owner
  size : set.size = other.size

theorem SameSpace.spans_eq (h : SameSpace set other) (s : Symbol) :
    set.spans s = other.spans s := by
  rw [spans, spans, h.owner, h.size]

theorem sameSpace_of_put? {value : Bool} (h : set.put? s value = some other) :
    SameSpace other set := by
  unfold put? at h
  split at h
  · cases h
    exact ⟨rfl, Array.size_setIfInBounds⟩
  · cases h

theorem sameSpace_insert (set : SymbolSet) (s : Symbol) : SameSpace (set.insert s) set := by
  unfold insert
  cases h : set.put? s true with
  | none => exact ⟨rfl, rfl⟩
  | some other => exact sameSpace_of_put? h

theorem sameSpace_foldl_insert (symbols : List Symbol) (set : SymbolSet) :
    SameSpace (symbols.foldl insert set) set := by
  induction symbols generalizing set with
  | nil => exact ⟨rfl, rfl⟩
  | cons s symbols ih =>
      obtain ⟨howner, hsize⟩ := ih (set.insert s)
      obtain ⟨howner', hsize'⟩ := sameSpace_insert set s
      exact ⟨howner.trans howner', hsize.trans hsize'⟩

end SymbolSet

/-! ## Occurrences in order -/

namespace Occurrence

variable {s : Symbol} {occurrences : List Occurrence}

theorem takeWhile_eq_filter (hsorted : occurrences.Pairwise (le · ·))
    (hle : ∀ o ∈ occurrences, s.le o.symbol = true) :
    occurrences.takeWhile (·.symbol = s) = occurrences.filter (·.symbol = s) := by
  induction occurrences with
  | nil => rfl
  | cons o occurrences ih =>
      obtain ⟨ho, hsorted⟩ := List.pairwise_cons.mp hsorted
      obtain ⟨hs, hle⟩ := List.forall_mem_cons.mp hle
      by_cases heq : o.symbol = s
      · rw [List.takeWhile_cons_of_pos (by simpa using heq),
          List.filter_cons_of_pos (by simpa using heq), ih hsorted hle]
      · -- Behind a greater symbol there is no occurrence of this one.
        rw [List.takeWhile_cons_of_neg (by simpa using heq), eq_comm, List.filter_eq_nil_iff]
        intro o' ho' hsymbol
        rcases List.mem_cons.mp ho' with rfl | ho'
        · exact heq (of_decide_eq_true hsymbol)
        · refine heq (Symbol.le_antisymm ?_ hs)
          rw [← of_decide_eq_true hsymbol]
          exact ho o' ho'

/-- **The stretch of a symbol** in a list that is in order holds all of its occurrences. -/
theorem stretch_eq_filter (hsorted : occurrences.Pairwise (le · ·)) :
    stretch s occurrences = occurrences.filter (·.symbol = s) := by
  induction occurrences with
  | nil => rfl
  | cons o occurrences ih =>
      by_cases hle : s.le o.symbol = true
      · have hdrop : (o :: occurrences).dropWhile (fun o => !s.le o.symbol) = o :: occurrences :=
          List.dropWhile_cons_of_neg (by simp [hle])
        rw [stretch, hdrop]
        refine takeWhile_eq_filter hsorted fun o' ho' => ?_
        rcases List.mem_cons.mp ho' with rfl | ho'
        · exact hle
        · exact Symbol.le_trans hle ((List.pairwise_cons.mp hsorted).1 o' ho')
      · have hne : ¬o.symbol = s := by
          rintro rfl
          have hself := Symbol.le_total o.symbol o.symbol
          rw [Bool.or_self] at hself
          exact hle hself
        have hdrop : (o :: occurrences).dropWhile (fun o => !s.le o.symbol) =
            occurrences.dropWhile (fun o => !s.le o.symbol) :=
          List.dropWhile_cons_of_pos (by simpa using hle)
        rw [stretch, hdrop, List.filter_cons_of_neg (by simpa using hne)]
        exact ih (List.pairwise_cons.mp hsorted).2

end Occurrence

namespace RuleSystem

variable {system : RuleSystem} {o : Occurrence} {s : Symbol}

theorem mem_occurrences_iff :
    o ∈ system.occurrences ↔ o.rule ∈ system.rules ∧ o.symbol ∈ o.rule.rhs := by
  rw [occurrences, (List.mergeSort_perm _ _).mem_iff, List.mem_flatMap]
  constructor
  · rintro ⟨rule, hrule, ho⟩
    obtain ⟨s, hs, rfl⟩ := List.mem_map.mp ho
    exact ⟨hrule, hs⟩
  · rintro ⟨hrule, hs⟩
    exact ⟨o.rule, hrule, List.mem_map.mpr ⟨o.symbol, hs, rfl⟩⟩

theorem mem_stretch_iff : o ∈ Occurrence.stretch s system.occurrences ↔
    o.rule ∈ system.rules ∧ o.symbol ∈ o.rule.rhs ∧ o.symbol = s := by
  have htrans : ∀ a b c : Occurrence, a.le b = true → b.le c = true → a.le c = true :=
    fun _ _ _ => Symbol.le_trans
  have htotal : ∀ a b : Occurrence, (a.le b || b.le a) = true :=
    fun a b => Symbol.le_total a.symbol b.symbol
  have hsorted : system.occurrences.Pairwise (Occurrence.le · ·) :=
    List.pairwise_mergeSort htrans htotal _
  rw [Occurrence.stretch_eq_filter hsorted, List.mem_filter, mem_occurrences_iff,
    decide_eq_true_eq, and_assoc]

end RuleSystem

/-! ## Propagation -/

namespace Propagation

variable {mode : Saturation} {rules : List Rule} {start : SymbolSet} {p q : Propagation}
  {o : Occurrence} {todo : List Occurrence}

theorem visit?_eq_some (h : p.visit? mode o = some q) :
    (mode.fires p.set o.rule = true ∧ p.set.contains o.rule.lhs = false ∧
      p.set.put? o.rule.lhs true = some q.set ∧ q.stack = o.rule.lhs :: p.stack) ∨
    (mode.fires p.set o.rule = true → p.set.contains o.rule.lhs = true) ∧ q = p := by
  unfold visit? at h
  split at h
  · rename_i hfires
    simp only [Bool.and_eq_true, Bool.not_eq_true'] at hfires
    obtain ⟨set, hset, rfl⟩ := Option.map_eq_some_iff.mp h
    exact Or.inl ⟨hfires.1, hfires.2, hset, rfl⟩
  · rename_i hfires
    simp only [Bool.and_eq_true, Bool.not_eq_true', not_and, Bool.not_eq_false] at hfires
    cases h
    exact Or.inr ⟨hfires, rfl⟩

theorem visit?_eq_none (h : p.visit? mode o = none) :
    mode.fires p.set o.rule = true ∧ p.set.spans o.rule.lhs = false := by
  unfold visit? at h
  split at h
  · rename_i hfires
    simp only [Bool.and_eq_true, Bool.not_eq_true'] at hfires
    refine ⟨hfires.1, ?_⟩
    rw [Option.map_eq_none_iff, SymbolSet.put?, ite_eq_right_iff] at h
    rw [← Bool.not_eq_true]
    exact fun hspans => Option.some_ne_none _ (h hspans)
  · cases h

/-- What holds of a propagation from a set while some occurrences are about to be visited. -/
structure Underway (mode : Saturation) (rules : List Rule) (start : SymbolSet)
    (todo : List Occurrence) (p : Propagation) : Prop where
  space : SymbolSet.SameSpace p.set start
  above : start.carrier ⊆ p.set.carrier
  /-- Nothing is inserted that the rules do not force. -/
  forced : ∀ S, start.carrier ⊆ S → mode.Closed rules S → p.set.carrier ⊆ S
  /-- What is still to be done is on the stack or about to be visited. -/
  pending : ∀ r ∈ rules, mode.Asks p.set.carrier r → r.lhs ∉ p.set.carrier →
    (∃ s ∈ r.rhs, s ∈ p.stack) ∨ ∃ o ∈ todo, o.rule = r

namespace Underway

theorem of_members (mode : Saturation) (rules : List Rule) (set : SymbolSet) :
    Underway mode rules set [] { set, stack := set.members.reverse } where
  space := ⟨rfl, rfl⟩
  above := Set.Subset.rfl
  forced := fun _ hS _ => hS
  pending := by
    intro r _ hasks _
    obtain ⟨s, hs, hmem⟩ := hasks.exists_mem
    exact Or.inl ⟨s, hs, List.mem_reverse.mpr (SymbolSet.mem_members.mpr hmem)⟩

/-- A symbol is taken from the stack, and its occurrences are about to be visited. -/
theorem pop {system : RuleSystem} {set : SymbolSet} {s : Symbol} {stack : List Symbol}
    (h : Underway mode system.rules start [] ⟨set, s :: stack⟩) :
    Underway mode system.rules start (Occurrence.stretch s system.occurrences) ⟨set, stack⟩ where
  space := h.space
  above := h.above
  forced := h.forced
  pending := by
    intro r hr hasks hlhs
    rcases h.pending r hr hasks hlhs with ⟨t, ht, hmem⟩ | ⟨_, hnil, -⟩
    · rcases List.mem_cons.mp hmem with rfl | hmem
      · exact Or.inr ⟨⟨t, r⟩, RuleSystem.mem_stretch_iff.mpr ⟨hr, ht, rfl⟩, rfl⟩
      · exact Or.inl ⟨t, ht, hmem⟩
    · cases hnil

/-- One visit. A rule that was waiting still waits; one that gets what it asks only now has the
symbol that is new on its right-hand side, and that is on the stack. -/
theorem visit (h : Underway mode rules start (o :: todo) p) (ho : o.rule ∈ rules)
    (hq : p.visit? mode o = some q) : Underway mode rules start todo q := by
  rcases visit?_eq_some hq with ⟨hfires, -, hput, hstack⟩ | ⟨hdone, rfl⟩
  · have hmem : ∀ t, t ∈ q.set.carrier ↔ t = o.rule.lhs ∨ t ∈ p.set.carrier := by
      intro t
      rw [SymbolSet.mem_carrier, SymbolSet.mem_carrier, SymbolSet.contains_of_put? hput]
      split
      · rename_i heq
        simp [heq]
      · rename_i hne
        simp [hne]
    have hspace := SymbolSet.sameSpace_of_put? hput
    refine ⟨⟨hspace.owner.trans h.space.owner, hspace.size.trans h.space.size⟩,
      fun t ht => (hmem t).mpr (Or.inr (h.above ht)), fun S hS hclosed t ht => ?_,
      fun r hr hasks hlhs => ?_⟩
    · rcases (hmem t).mp ht with rfl | ht
      · exact hclosed _ ho ((SymbolSet.fires_iff.mp hfires).mono (h.forced S hS hclosed))
      · exact h.forced S hS hclosed ht
    · rw [hmem, not_or] at hlhs
      rcases hasks.mem_or fun t => (hmem t).mp with hs | hasks
      · exact Or.inl ⟨_, hs, hstack ▸ List.mem_cons_self⟩
      · rcases h.pending r hr hasks hlhs.2 with ⟨s, hs, hold⟩ | ⟨o', ho', rfl⟩
        · exact Or.inl ⟨s, hs, hstack ▸ List.mem_cons_of_mem _ hold⟩
        · rcases List.mem_cons.mp ho' with rfl | ho'
          · exact absurd rfl hlhs.1
          · exact Or.inr ⟨o', ho', rfl⟩
  · refine ⟨h.space, h.above, h.forced, fun r hr hasks hlhs => ?_⟩
    refine (h.pending r hr hasks hlhs).imp_right ?_
    rintro ⟨o', ho', rfl⟩
    rcases List.mem_cons.mp ho' with rfl | ho'
    · exact absurd (hdone (SymbolSet.fires_iff.mpr hasks)) hlhs
    · exact ⟨o', ho', rfl⟩

/-- Visits of one occurrence after another end with nothing left to visit, or at a rule whose
left-hand side has no bit. -/
theorem visitAll (h : Underway mode rules start todo p) (htodo : ∀ o ∈ todo, o.rule ∈ rules) :
    (∃ q, p.visitAll? mode todo = some q ∧ Underway mode rules start [] q) ∨
      p.visitAll? mode todo = none ∧ ∃ todo q, Underway mode rules start todo q ∧
        ∃ r ∈ rules, mode.fires q.set r = true ∧ q.set.spans r.lhs = false := by
  induction todo generalizing p with
  | nil => exact Or.inl ⟨p, rfl, h⟩
  | cons o todo ih =>
      obtain ⟨ho, htodo⟩ := List.forall_mem_cons.mp htodo
      rw [visitAll?, List.foldlM_cons]
      cases hvisit : p.visit? mode o with
      | none => exact Or.inr ⟨rfl, _, p, h, o.rule, ho, visit?_eq_none hvisit⟩
      | some q => exact ih (h.visit ho hvisit) htodo

/-- **A propagation ends closed**, or at a rule whose left-hand side has no bit. -/
theorem run {system : RuleSystem} (h : Underway mode system.rules start [] p) :
    (∃ set, run? mode system.occurrences p = some set ∧
        Underway mode system.rules start [] ⟨set, []⟩) ∨
      run? mode system.occurrences p = none ∧ ∃ todo q, Underway mode system.rules start todo q ∧
        ∃ r ∈ system.rules, mode.fires q.set r = true ∧ q.set.spans r.lhs = false := by
  fun_induction run? mode system.occurrences p with
  | case1 set => exact Or.inl ⟨set, rfl, h⟩
  | case2 set s stack hvisited =>
      have hrule : ∀ o ∈ Occurrence.stretch s system.occurrences, o.rule ∈ system.rules :=
        fun o ho => (RuleSystem.mem_stretch_iff.mp ho).1
      rcases h.pop.visitAll hrule with ⟨q, hq, -⟩ | ⟨-, hstuck⟩
      · rw [hvisited] at hq
        cases hq
      · exact Or.inr ⟨rfl, hstuck⟩
  | case3 set s stack q hvisited ih =>
      have hrule : ∀ o ∈ Occurrence.stretch s system.occurrences, o.rule ∈ system.rules :=
        fun o ho => (RuleSystem.mem_stretch_iff.mp ho).1
      rcases h.pop.visitAll hrule with ⟨q', hq, hunderway⟩ | ⟨hnone, -⟩
      · rw [hvisited] at hq
        cases hq
        exact ih hunderway
      · rw [hvisited] at hnone
        cases hnone

/-- With an empty stack everything is closed, so nothing is missing from the least closed set. -/
theorem isLeast {set : SymbolSet} (h : Underway mode rules start [] ⟨set, []⟩) :
    IsLeast {S | start.carrier ⊆ S ∧ mode.Closed rules S} set.carrier := by
  refine ⟨⟨h.above, fun r hr hasks => ?_⟩, fun S hS => h.forced S hS.1 hS.2⟩
  by_contra hlhs
  rcases h.pending r hr hasks hlhs with ⟨_, _, hnil⟩ | ⟨_, hnil, -⟩ <;> cases hnil

end Underway

end Propagation

/-! ## Saturation -/

namespace RuleSystem

variable {system : RuleSystem} {mode : Saturation} {set : SymbolSet}

theorem sameSpace_saturate (system : RuleSystem) (mode : Saturation) (set : SymbolSet) :
    SymbolSet.SameSpace (system.saturate mode set) set := by
  fun_induction saturate system mode set with
  | case1 => exact ⟨rfl, rfl⟩
  | case2 set rule _ ih =>
      have hinsert := SymbolSet.sameSpace_insert set rule.lhs
      exact ⟨ih.owner.trans hinsert.owner, ih.size.trans hinsert.size⟩

theorem saturate_subset {S : Set Symbol} (hS : set.carrier ⊆ S)
    (hclosed : mode.Closed system.rules S) : (system.saturate mode set).carrier ⊆ S := by
  refine saturate_induction (motive := (· ∈ S)) hS fun t r hr hfires ht => ?_
  exact hclosed r hr ((SymbolSet.fires_iff.mp hfires).mono ht)

/-- **The saturated set is the least closed set** above a set, if that has a bit for every
left-hand side. -/
theorem isLeast_saturate (hspans : ∀ r ∈ system.rules, set.spans r.lhs = true) :
    IsLeast {S | set.carrier ⊆ S ∧ mode.Closed system.rules S}
      (system.saturate mode set).carrier := by
  refine ⟨⟨fun s => contains_saturate, fun r hr hasks => ?_⟩, fun S hS => ?_⟩
  · exact contains_lhs_of_fires hr (SymbolSet.fires_iff.mpr hasks) (hspans r hr)
  · exact saturate_subset hS.1 hS.2

theorem escapes_iff : system.escapes mode (system.saturate mode set) = true ↔
    ∃ r ∈ system.rules, mode.fires (system.saturate mode set) r = true ∧
      set.spans r.lhs = false := by
  simp only [escapes, List.any_eq_true, Bool.and_eq_true, Bool.not_eq_true', spans_saturate]

/-- If no rule fires whose left-hand side has no bit, the saturated set is closed. -/
theorem closed_saturate (h : system.escapes mode (system.saturate mode set) ≠ true) :
    mode.Closed system.rules (system.saturate mode set).carrier := by
  intro r hr hasks
  have hfires := SymbolSet.fires_iff.mpr hasks
  cases hspans : set.spans r.lhs with
  | true => exact contains_lhs_of_fires hr hfires hspans
  | false => exact absurd (escapes_iff.mpr ⟨r, hr, hfires, hspans⟩) h

/-- **Propagation answers as saturation does**, and has no answer where that has none. -/
theorem propagate?_eq_saturate? (system : RuleSystem) (mode : Saturation) (set : SymbolSet) :
    system.propagate? mode set = system.saturate? mode set := by
  have hrun := (Propagation.Underway.of_members mode system.rules set).run
  have hspace := sameSpace_saturate system mode set
  rw [propagate?, saturate?]
  by_cases hescapes : system.escapes mode (system.saturate mode set) = true
  · rw [if_pos hescapes]
    rcases hrun with ⟨closed, -, hclosed⟩ | ⟨hnone, -⟩
    · -- A closed set would have the left-hand side that has no bit.
      obtain ⟨r, hr, hfires, hspans⟩ := escapes_iff.mp hescapes
      have hsubset := saturate_subset hclosed.isLeast.1.1 hclosed.isLeast.1.2
      have hlhs := hclosed.isLeast.1.2 r hr ((SymbolSet.fires_iff.mp hfires).mono hsubset)
      have hbit := SymbolSet.spans_of_contains hlhs
      rw [hclosed.space.spans_eq, hspans] at hbit
      cases hbit
    · exact hnone
  · have hclosed' := closed_saturate hescapes
    rw [if_neg hescapes]
    rcases hrun with ⟨closed, hsome, hclosed⟩ | ⟨-, todo, q, hq, r, hr, hfires, hspans⟩
    · rw [hsome]
      refine congrArg some (SymbolSet.eq_of_carrier (hclosed.space.owner.trans hspace.owner.symm)
        (hclosed.space.size.trans hspace.size.symm) (Set.Subset.antisymm ?_ ?_))
      · exact hclosed.isLeast.2 ⟨fun s => contains_saturate, hclosed'⟩
      · exact saturate_subset hclosed.isLeast.1.1 hclosed.isLeast.1.2
    · -- What was inserted up to the rule without an answer belongs to the saturated set.
      have hsubset := hq.forced _ (fun s => contains_saturate) hclosed'
      refine absurd (escapes_iff.mpr ⟨r, hr, ?_, ?_⟩) hescapes
      · exact SymbolSet.fires_iff.mpr ((SymbolSet.fires_iff.mp hfires).mono hsubset)
      · rw [← hq.space.spans_eq]
        exact hspans

/-! ## Sets over the symbol space of the rules -/

theorem spans_of_sameSpace (h : SymbolSet.SameSpace set system.noSymbols) (s : Symbol) :
    set.spans s = system.spans s := by
  rw [h.spans_eq, spans_noSymbols]

theorem sameSpace_vanishing (system : RuleSystem) :
    SymbolSet.SameSpace system.vanishing system.noSymbols := by
  rw [vanishing_eq_foldl]
  exact SymbolSet.sameSpace_foldl_insert _ _

theorem propagate?_of_isScoped (h : system.isScoped = true)
    (hset : SymbolSet.SameSpace set system.noSymbols) :
    system.propagate? mode set = some (system.saturate mode set) := by
  rw [propagate?_eq_saturate?, saturate?]
  refine if_neg fun hescapes => ?_
  obtain ⟨r, hr, -, hspans⟩ := escapes_iff.mp hescapes
  rw [spans_of_sameSpace hset, (isScoped_iff.mp h r hr).1] at hspans
  cases hspans

/-- The order of the rules and how often each occurs do not matter. -/
theorem saturate_congr {rules : List Rule} (h : system.isScoped = true)
    (hset : SymbolSet.SameSpace set system.noSymbols) (hrules : ∀ r, r ∈ rules ↔ r ∈ system.rules) :
    { system with rules }.saturate mode set = system.saturate mode set := by
  have hspans : ∀ r ∈ system.rules, set.spans r.lhs = true := fun r hr => by
    rw [spans_of_sameSpace hset]
    exact (isScoped_iff.mp h r hr).1
  have hleast : IsLeast {S | set.carrier ⊆ S ∧ mode.Closed rules S}
      ({ system with rules }.saturate mode set).carrier :=
    isLeast_saturate fun r hr => hspans r ((hrules r).mp hr)
  have hclosed : mode.Closed rules = mode.Closed system.rules := by
    funext S
    simp only [Saturation.Closed, hrules]
  have hspace := sameSpace_saturate system mode set
  have hspace' := sameSpace_saturate { system with rules } mode set
  refine SymbolSet.eq_of_carrier (hspace'.owner.trans hspace.owner.symm)
    (hspace'.size.trans hspace.size.symm) ?_
  rw [hclosed] at hleast
  exact hleast.unique (isLeast_saturate hspans)

/-- **Nullable symbols are those that derive the empty string**, and they are found by propagation
from the left-hand sides of empty rules. In general, propagation in either mode from any set over
the symbol space of the rules comes to an end, at the least set above it that holds the left-hand
side of every rule that gets what it asks; it does not matter in which order the rules come and
how often. -/
theorem nullable_exact (h : system.isScoped = true) :
    (∀ a, system.spans a = true →
      (system.nullable.contains a = true ↔ Derives system.rules [a] [])) ∧
    system.propagate? .all system.vanishing = some system.nullable ∧
    ∀ (mode : Saturation) (set : SymbolSet), set.owner = system.owner → set.size = system.size →
      ∃ closed, system.propagate? mode set = some closed ∧
        closed.owner = system.owner ∧ closed.size = system.size ∧
        IsLeast {S | set.carrier ⊆ S ∧ mode.Closed system.rules S} closed.carrier ∧
        ∀ rules, (∀ r, r ∈ rules ↔ r ∈ system.rules) →
          { system with rules }.propagate? mode set = some closed := by
  have hspace : ∀ set : SymbolSet, set.owner = system.owner → set.size = system.size →
      SymbolSet.SameSpace set system.noSymbols := by
    intro set howner hsize
    refine ⟨howner, hsize.trans ?_⟩
    simp [noSymbols, SymbolSet.replicate, SymbolSet.size]
  refine ⟨fun a _ => ?_, ?_, fun mode set howner hsize => ?_⟩
  · rw [contains_nullable_iff h, vanishes_iff]
  · exact propagate?_of_isScoped h (sameSpace_vanishing system)
  · have hset := hspace set howner hsize
    have hsaturate := sameSpace_saturate system mode set
    refine ⟨_, propagate?_of_isScoped h hset, hsaturate.owner.trans howner,
      hsaturate.size.trans hsize, isLeast_saturate fun r hr => ?_, fun rules hrules => ?_⟩
    · rw [spans_of_sameSpace hset]
      exact (isScoped_iff.mp h r hr).1
    · rw [← saturate_congr h hset hrules]
      refine propagate?_of_isScoped (isScoped_iff.mpr fun r hr => ?_) hset
      exact isScoped_iff.mp h r ((hrules r).mp hr)

/-- Of `S → A A`, `A → B B`, `B → ε` and `S → a` every nonterminal is nullable. Going up from `B`
alone, the set of the symbols with `B` below them somewhere is found. -/
theorem nullable_exact_sample :
    let symbol : Nat → Symbol := Symbol.mk ⟨1⟩
    let system : RuleSystem := ⟨⟨1⟩, 4, [⟨symbol 0, [symbol 1, symbol 1]⟩,
      ⟨symbol 1, [symbol 2, symbol 2]⟩, ⟨symbol 2, []⟩, ⟨symbol 0, [symbol 3]⟩]⟩
    let start : SymbolSet := ⟨⟨1⟩, #[false, false, true, false]⟩
    system.isScoped = true ∧ system.spans (symbol 0) = true ∧
      Derives system.rules [symbol 0] [] ∧
      start.owner = system.owner ∧ start.size = system.size ∧
      ∃ closed, system.propagate? .any start = some closed ∧
        Saturation.any.Closed system.rules closed.carrier := by
  intro symbol system start
  have hscoped : system.isScoped = true := by decide
  have hspans : system.spans (symbol 0) = true := by decide
  obtain ⟨hnullable, -, hclosed⟩ := nullable_exact hscoped
  obtain ⟨closed, hsome, -, -, hleast, -⟩ := hclosed .any start rfl rfl
  refine ⟨hscoped, hspans, (hnullable _ hspans).mp ?_, rfl, rfl, closed, hsome, hleast.1.2⟩
  decide +kernel

end RuleSystem

end TopDown
