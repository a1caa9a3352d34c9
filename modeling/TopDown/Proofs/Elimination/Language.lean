import TopDown.Proofs.Grammar.Reachable
import TopDown.Proofs.Transform.Language

/-!
# Elimination preserves the language

* `spells_substitute_iff`: a substitution changes nothing that is spelled.
* `spells_turnAround_iff`: turning recursion around changes nothing that is spelled without the
  helper. The helper is read as what may follow any string of the nonterminal.
* `language_eliminateLeftRecursion`: every nonterminal keeps its language.
-/

namespace TopDown.Transform.Elimination

variable {a b helper : Symbol} {name : String} {drafts : List Draft} {leaf : Symbol → Prop}
  {γ u v w : List Symbol}

/-! ## Substitution -/

theorem spells_substitute_iff (hne : a ≠ b) (hb : ¬leaf b) :
    Spells (rulesOf (substitute a b drafts)) leaf γ w ↔ Spells (rulesOf drafts) leaf γ w := by
  constructor
  · refine Spells.of_admissible fun r hr w hw => ?_
    rcases mem_rulesOf_substitute_iff.mp hr with ⟨hr, -⟩ | ⟨δ, β, hδ, hβ, rfl⟩
    · exact .of_mem hr hw
    · obtain ⟨u, v, rfl, hu, hv⟩ := spells_append_iff.mp hw
      have hrhs : Spells (rulesOf drafts) leaf (b :: δ) (u ++ v) := .rule hβ hu hv
      exact Spells.of_mem (r := ⟨a, b :: δ⟩) hδ hrhs
  · refine Spells.of_admissible fun r hr w hw => ?_
    by_cases hstart : r.lhs = a ∧ ∃ δ, r.rhs = b :: δ
    · obtain ⟨hlhs, δ, hδ⟩ := hstart
      have hmem : ⟨a, b :: δ⟩ ∈ rulesOf drafts := by
        rw [← hlhs, ← hδ]
        exact hr
      rw [hδ] at hw
      rw [hlhs]
      obtain ⟨u, v, rfl, hu, hv⟩ := spells_cons_iff.mp hw
      obtain ⟨r', hr', hb', hbelow⟩ := hu.rule_of_not_leaf hb
      -- The rules of `b` are the old ones, since only those of `a` are touched.
      rcases mem_rulesOf_substitute_iff.mp hr' with ⟨hr', -⟩ | ⟨_, _, -, -, rfl⟩
      · have hβ : ⟨b, r'.rhs⟩ ∈ rulesOf drafts := hb' ▸ hr'
        have hnew : ⟨a, r'.rhs ++ δ⟩ ∈ rulesOf (substitute a b drafts) :=
          mem_rulesOf_substitute_iff.mpr (Or.inr ⟨δ, r'.rhs, hmem, hβ, rfl⟩)
        exact .of_mem hnew (hbelow.append hv)
      · exact absurd hb' hne
    · exact .of_mem (mem_rulesOf_substitute_iff.mpr (Or.inl ⟨hr, hstart⟩)) hw

/-! ## Right recursion -/

/-- What a right-recursive symbol spells may be put together. -/
theorem spells_append_of_rightRecursive {rules : List Rule} (hleaf : ¬leaf helper)
    (hrules : ∀ r ∈ rules, r.lhs = helper → r.rhs = [] ∨ ∃ α, r.rhs = α ++ [helper])
    (hu : Spells rules leaf [helper] u) (hv : Spells rules leaf [helper] v) :
    Spells rules leaf [helper] (u ++ v) := by
  -- Told of all strings that end in the helper, so that the induction reaches its last use.
  have key : ∀ γ u, Spells rules leaf γ u → ∀ δ, γ = δ ++ [helper] →
      Spells rules leaf γ (u ++ v) := by
    intro γ u h
    induction h with
    | nil =>
        intro δ hδ
        exact absurd hδ (by simp)
    | @leaf s γ w hs rest ih =>
        intro δ hδ
        rcases List.cons_eq_append_iff.mp hδ with ⟨-, heq⟩ | ⟨δ', -, hγ⟩
        · obtain ⟨rfl, -⟩ := List.cons_eq_cons.mp heq
          exact absurd hs hleaf
        · exact .leaf hs (ih δ' hγ)
    | @rule r γ u v' hr below rest ihb ihr =>
        intro δ hδ
        rcases List.cons_eq_append_iff.mp hδ with ⟨-, heq⟩ | ⟨δ', -, hγ⟩
        · obtain ⟨hlhs, rfl⟩ := List.cons_eq_cons.mp heq
          rw [spells_nil_iff.mp rest, List.append_nil]
          rcases hrules r hr hlhs.symm with hnil | ⟨α, hα⟩
          · rw [hnil] at below
            rw [spells_nil_iff.mp below, ← hlhs]
            exact hv
          · exact .of_mem hr (ihb α hα)
        · rw [List.append_assoc]
          exact .rule hr below (ihr δ' hγ)
  exact key [helper] u hu [] rfl

/-! ## Turning recursion around -/

section TurnAround

variable (hleaf : ¬leaf helper) (hne : a ≠ helper)
  (hfresh : ∀ r ∈ rulesOf drafts, r.lhs ≠ helper ∧ helper ∉ r.rhs)
include hleaf hne hfresh

theorem spells_of_spells_turnAround (hγ : helper ∉ γ)
    (h : Spells (rulesOf (turnAround a helper name drafts)) leaf γ w) :
    Spells (rulesOf drafts) leaf γ w := by
  -- The helper reads as what may be put behind every string that `a` spells.
  refine Spells.of_reading
    (H := fun w =>
      ∀ u, Spells (rulesOf drafts) leaf [a] u → Spells (rulesOf drafts) leaf [a] (u ++ w))
    hleaf (fun r hr w hw => ?_) hγ h
  rcases mem_rulesOf_turnAround_iff.mp hr with
    (⟨hr, -⟩ | ⟨β, hβ, -, rfl⟩) | ⟨α, hα, rfl⟩ | rfl
  · obtain ⟨hlhs, hrhs⟩ := hfresh r hr
    rw [reads_of_not_mem hrhs] at hw
    rw [readingWith, if_neg hlhs]
    exact .of_mem hr hw
  · obtain ⟨u, v, rfl, hu, hv⟩ := reads_append_iff.mp hw
    rw [reads_of_not_mem (hfresh _ hβ).2] at hu
    rw [reads_singleton, readingWith, if_pos rfl] at hv
    rw [readingWith, if_neg hne]
    exact hv u (.of_mem hβ hu)
  · obtain ⟨u, v, rfl, hu, hv⟩ := reads_append_iff.mp hw
    have hα' : helper ∉ α := fun hmem => (hfresh _ hα).2 (List.mem_cons_of_mem _ hmem)
    rw [reads_of_not_mem hα'] at hu
    rw [reads_singleton, readingWith, if_pos rfl] at hv
    rw [readingWith, if_pos rfl]
    intro x hx
    have hrec : Spells (rulesOf drafts) leaf [a] (x ++ u) := .of_mem hα (hx.append hu)
    rw [← List.append_assoc]
    exact hv _ hrec
  · rw [readingWith, if_pos rfl]
    intro x hx
    rw [show w = [] from hw, List.append_nil]
    exact hx

theorem spells_turnAround_of_spells (ha : ¬leaf a) (h : Spells (rulesOf drafts) leaf γ w) :
    Spells (rulesOf (turnAround a helper name drafts)) leaf γ w := by
  have hend : Spells (rulesOf (turnAround a helper name drafts)) leaf [helper] [] :=
    .of_mem (mem_rulesOf_turnAround_iff.mpr (Or.inr (Or.inr rfl))) .nil
  refine h.of_admissible fun r hr w hw => ?_
  by_cases hlhs : r.lhs = a
  · rw [hlhs]
    have hmem : ⟨a, r.rhs⟩ ∈ rulesOf drafts := hlhs ▸ hr
    by_cases hrec : ∃ α, r.rhs = a :: α
    · obtain ⟨α, hα⟩ := hrec
      rw [hα] at hw hmem
      obtain ⟨u, v, rfl, hu, hv⟩ := spells_cons_iff.mp hw
      obtain ⟨r', hr', hlhs', hbelow⟩ := hu.rule_of_not_leaf ha
      rcases mem_rulesOf_turnAround_iff.mp hr' with
        (⟨-, hother⟩ | ⟨β, hβ, hstart, rfl⟩) | ⟨_, -, rfl⟩ | rfl
      · exact absurd hlhs' hother
      · -- A seed of `a` is followed by the helper, which takes the tail `α` as well.
        obtain ⟨x, y, rfl, hx, hy⟩ := spells_append_iff.mp hbelow
        have htail : Spells (rulesOf (turnAround a helper name drafts)) leaf [helper] (v ++ []) :=
          .of_mem (mem_rulesOf_turnAround_iff.mpr (Or.inr (Or.inl ⟨α, hmem, rfl⟩)))
            (hv.append hend)
        rw [List.append_nil] at htail
        have hboth := spells_append_of_rightRecursive hleaf
          (rightRecursive_turnAround hne hfresh) hy htail
        rw [List.append_assoc]
        exact .of_mem hr' (hx.append hboth)
      · exact absurd hlhs'.symm hne
      · exact absurd hlhs'.symm hne
    · have hseed : ⟨a, r.rhs ++ [helper]⟩ ∈ rulesOf (turnAround a helper name drafts) :=
        mem_rulesOf_turnAround_iff.mpr
          (Or.inl (Or.inr ⟨r.rhs, hmem, fun δ hδ => hrec ⟨δ, hδ⟩, rfl⟩))
      have hbelow := hw.append hend
      rw [List.append_nil] at hbelow
      exact .of_mem hseed hbelow
  · exact .of_mem (mem_rulesOf_turnAround_iff.mpr (Or.inl (Or.inl ⟨hr, hlhs⟩))) hw

theorem spells_turnAround_iff (ha : ¬leaf a) (hγ : helper ∉ γ) :
    Spells (rulesOf (turnAround a helper name drafts)) leaf γ w ↔
      Spells (rulesOf drafts) leaf γ w :=
  ⟨spells_of_spells_turnAround hleaf hne hfresh hγ,
    spells_turnAround_of_spells hleaf hne hfresh ha⟩

end TurnAround

/-! ## The run -/

section Run

variable {options : Options} {corners : SymbolRelation} {g : Grammar} {p : Progress}

theorem preserves_substitute (h : p.Preserves g) (hne : a ≠ b)
    (hb : g.symbols.kind? b = some .nonterminal) (journal : Array Event) :
    { p with drafts := substitute a b p.drafts, changed := true, journal }.Preserves g :=
  h.trans fun _ _ _ => spells_substitute_iff hne (Grammar.not_isTerminal_of_kind? hb)

theorem preserves_turnAround (h : p.Preserves g) (htracks : p.Tracks g)
    (ha : g.symbols.kind? a = some .nonterminal) (journal : Array Event) :
    let issued := p.introduce options a
    { issued.2 with
      drafts := turnAround a issued.1 (issued.2.name issued.1) p.drafts
      changed := true
      journal }.Preserves g := by
  have hne : a ≠ (p.introduce options a).1 :=
    htracks.ne_introduce (SymbolTable.contains_of_kind? ha)
  refine h.introduce htracks journal fun hleaf hfresh γ w hγ => ?_
  exact spells_turnAround_iff hleaf hne hfresh (Grammar.not_isTerminal_of_kind? ha) hγ

variable (options corners) in
/-- Treating the nonterminals in turn preserves the language. -/
theorem preserves_treatAll (hp : p.Tracks g) (h : p.Preserves g) :
    Meets (fun q => q.Tracks g ∧ q.Preserves g)
      (fun f => f.progress.Tracks g ∧ f.progress.Preserves g)
      (treatAll options corners [] p g.symbols.nonterminals) := by
  refine meets_treatAll_of_steps (I := fun q => q.Tracks g ∧ q.Preserves g) ?_ ?_
    (List.nil_append _).symm ⟨hp, h⟩
  · rintro earlier a later c p horder hc ⟨htracks, hpreserves⟩ - - journal
    have hne : a ≠ c := by
      rintro rfl
      exact not_mem_earlier horder hc
    have hkind := kind?_of_mem_order horder (List.mem_append_left _ hc)
    exact ⟨tracks_substitute htracks journal, preserves_substitute hpreserves hne hkind journal⟩
  · rintro earlier a later p horder ⟨htracks, hpreserves⟩ - - journal
    have hkind := kind?_of_mem_order horder (s := a) (by simp)
    exact ⟨tracks_turnAround htracks journal,
      preserves_turnAround hpreserves htracks hkind journal⟩

/-- **Elimination preserves the language.** If it succeeds, every nonterminal of the grammar is
still one and derives the same terminal strings as before; the start symbol stays. -/
theorem language_eliminateLeftRecursion (hg : g.Reachable) {helpers : List Symbol}
    (hok : (g.eliminateLeftRecursion options).result = .ok helpers) :
    (∀ a, g.symbols.kind? a = some .nonterminal →
      (g.eliminateLeftRecursion options).grammar.symbols.kind? a = some .nonterminal ∧
        (g.eliminateLeftRecursion options).grammar.language a = g.language a) ∧
    (g.eliminateLeftRecursion options).grammar.start = g.start ∧
    ∀ s, g.start = some s →
      (g.eliminateLeftRecursion options).grammar.language s = g.language s := by
  obtain ⟨journal, p, hp, journal', heq⟩ := exists_of_result_eq_ok hok
  have hwf := hg.wellFormed
  have hrun := preserves_treatAll options
    (g.system.vanishingCorners g.system.nullable)
    (Progress.Tracks.start hwf journal) (Progress.preserves_start g journal)
  rw [hp] at hrun
  have htracks : { p with journal := journal' }.Tracks g := hrun.1.journal journal'
  have hpreserves : { p with journal := journal' }.Preserves g := hrun.2
  rw [heq]
  exact hpreserves.commit htracks hwf

/-- On the sample the elimination succeeds with one helper. -/
theorem language_eliminateLeftRecursion_sample :
    let start : Symbol := ⟨⟨1⟩, 0⟩
    (Grammar.sample.eliminateLeftRecursion {}).result = .ok [⟨⟨1⟩, 3⟩] ∧
      Grammar.sample.symbols.kind? start = some .nonterminal ∧
      (Grammar.sample.eliminateLeftRecursion {}).grammar.language start =
        Grammar.sample.language start := by
  have hok : (Grammar.sample.eliminateLeftRecursion {}).result = .ok [⟨⟨1⟩, 3⟩] := by
    decide +kernel
  have hkind : Grammar.sample.symbols.kind? ⟨⟨1⟩, 0⟩ = some .nonterminal := by
    decide +kernel
  exact ⟨hok, hkind,
    ((language_eliminateLeftRecursion Grammar.reachable_sample hok).1 _ hkind).2⟩

end Run

end TopDown.Transform.Elimination
