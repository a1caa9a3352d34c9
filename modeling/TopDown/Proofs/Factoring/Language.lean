import TopDown.Proofs.Grammar.Reachable
import TopDown.Proofs.Transform.Language

/-!
# Left-factoring preserves the language

* `spells_merge_iff`: a merge changes nothing that is spelled without the helper. The helper is
  read as what the alternatives spell behind their shared beginning.
* `language_leftFactor`: every nonterminal keeps its language.
-/

namespace TopDown.Transform.Factoring

variable {a head helper : Symbol} {name : String} {drafts : List Draft} {leaf : Symbol → Prop}
  {γ w : List Symbol}

/-! ## One merge -/

section Merge

variable (hany : drafts.any (isMember a head) = true)
include hany

/-- Some alternative has the shared beginning in front. -/
theorem exists_mem_rulesOf_of_member :
    ∃ δ, ⟨a, beginning a head drafts ++ δ⟩ ∈ rulesOf drafts := by
  obtain ⟨d, hd, hmember⟩ := List.any_eq_true.mp hany
  have hend : d.rhs.drop (beginning a head drafts).length ∈ ends a head drafts :=
    List.mem_map_of_mem (List.mem_filter.mpr ⟨hd, hmember⟩)
  exact ⟨_, (mem_ends_iff.mp hend).1⟩

variable (hleaf : ¬leaf helper) (hne : a ≠ helper)
  (hfresh : ∀ r ∈ rulesOf drafts, r.lhs ≠ helper ∧ helper ∉ r.rhs)
include hleaf hne hfresh

theorem spells_of_spells_merge (hγ : helper ∉ γ)
    (h : Spells (rulesOf (merge a head helper name drafts)) leaf γ w) :
    Spells (rulesOf drafts) leaf γ w := by
  have hends : ∀ δ, ⟨a, beginning a head drafts ++ δ⟩ ∈ rulesOf drafts →
      helper ∉ beginning a head drafts ∧ helper ∉ δ := by
    intro δ hδ
    have hnot : helper ∉ beginning a head drafts ++ δ := (hfresh _ hδ).2
    rw [List.mem_append, not_or] at hnot
    exact hnot
  -- The helper reads as what some alternative spells behind the shared beginning.
  refine Spells.of_reading
    (H := fun w => ∃ δ, ⟨a, beginning a head drafts ++ δ⟩ ∈ rulesOf drafts ∧
      Spells (rulesOf drafts) leaf δ w)
    hleaf (fun r hr w hw => ?_) hγ h
  rcases (mem_rulesOf_merge_iff hany).mp hr with (⟨hr, -⟩ | rfl) | ⟨δ, ⟨hδ, -⟩, rfl⟩
  · obtain ⟨hlhs, hrhs⟩ := hfresh r hr
    rw [reads_of_not_mem hrhs] at hw
    rw [readingWith, if_neg hlhs]
    exact .of_mem hr hw
  · obtain ⟨ε, hε⟩ := exists_mem_rulesOf_of_member hany
    obtain ⟨u, v, rfl, hu, hv⟩ := reads_append_iff.mp hw
    rw [reads_of_not_mem (hends ε hε).1] at hu
    rw [reads_singleton, readingWith, if_pos rfl] at hv
    obtain ⟨δ, hδ, hend⟩ := hv
    rw [readingWith, if_neg hne]
    exact Spells.of_mem (r := ⟨a, beginning a head drafts ++ δ⟩) hδ (hu.append hend)
  · rw [reads_of_not_mem (hends δ hδ).2] at hw
    rw [readingWith, if_pos rfl]
    exact ⟨δ, hδ, hw⟩

omit hleaf hne hfresh in
theorem spells_merge_of_spells (h : Spells (rulesOf drafts) leaf γ w) :
    Spells (rulesOf (merge a head helper name drafts)) leaf γ w := by
  refine h.of_admissible fun r hr w hw => ?_
  by_cases hmember : r.lhs = a ∧ ∃ δ, r.rhs = head :: δ
  · obtain ⟨δ, hrhs, hmerged, hend⟩ :=
      exists_end_of_member helper name hr hmember.1 hmember.2
    rw [hrhs] at hw
    obtain ⟨u, v, rfl, hu, hv⟩ := spells_append_iff.mp hw
    rw [hmember.1]
    exact Spells.of_mem hmerged (hu.append (.of_mem hend hv))
  · exact .of_mem ((mem_rulesOf_merge_iff hany).mpr (Or.inl (Or.inl ⟨hr, hmember⟩))) hw

theorem spells_merge_iff (hγ : helper ∉ γ) :
    Spells (rulesOf (merge a head helper name drafts)) leaf γ w ↔
      Spells (rulesOf drafts) leaf γ w :=
  ⟨spells_of_spells_merge hany hleaf hne hfresh hγ, spells_merge_of_spells hany⟩

end Merge

/-! ## The run -/

section Run

variable {options : Options} {g : Grammar} {p : Progress}

theorem preserves_merge (h : p.Preserves g) (htracks : p.Tracks g)
    (hshared : sharedHead? a p.drafts = some head) (journal : Array Event) :
    let issued := p.introduce options a
    { issued.2 with
      drafts := merge a head issued.1 (issued.2.name issued.1) p.drafts
      changed := true
      journal }.Preserves g := by
  have hany := any_isMember_of_sharedHead? hshared
  obtain ⟨δ, hδ⟩ := exists_mem_rulesOf_of_member hany
  refine h.introduce htracks journal fun hleaf hfresh γ w hγ => ?_
  exact spells_merge_iff hany hleaf (hfresh _ hδ).1 hfresh hγ

variable (options) in
/-- Factoring from a queue preserves the language. -/
theorem preserves_factorAll (hp : p.Tracks g) (h : p.Preserves g) (queue : List Symbol) :
    Meets (fun q => q.Tracks g ∧ q.Preserves g)
      (fun f => f.progress.Tracks g ∧ f.progress.Preserves g) (factorAll options p queue) := by
  refine meets_factorAll_of_merge (I := fun q => q.Tracks g ∧ q.Preserves g) ?_ ⟨hp, h⟩ queue
  rintro a p head ⟨htracks, hpreserves⟩ hshared journal
  exact ⟨tracks_merge htracks hshared journal,
    preserves_merge hpreserves htracks hshared journal⟩

/-- **Left-factoring preserves the language.** If it succeeds, every nonterminal of the grammar is
still one and derives the same terminal strings as before; the start symbol stays. -/
theorem language_leftFactor (hg : g.Reachable) {helpers : List Symbol}
    (hok : (g.leftFactor options).result = .ok helpers) :
    (∀ a, g.symbols.kind? a = some .nonterminal →
      (g.leftFactor options).grammar.symbols.kind? a = some .nonterminal ∧
        (g.leftFactor options).grammar.language a = g.language a) ∧
    (g.leftFactor options).grammar.start = g.start ∧
    ∀ s, g.start = some s → (g.leftFactor options).grammar.language s = g.language s := by
  have hwf := hg.wellFormed
  have hrun := preserves_factorAll options (Progress.Tracks.start hwf #[])
    (Progress.preserves_start g #[]) g.symbols.nonterminals
  obtain ⟨p, hp, heq⟩ := exists_of_result_eq_ok hok
  rw [hp] at hrun
  obtain ⟨htracks, hpreserves⟩ : p.Tracks g ∧ p.Preserves g := hrun
  rw [heq]
  exact hpreserves.commit htracks hwf

/-- On the sample left-factoring succeeds with one helper. -/
theorem language_leftFactor_sample :
    let start : Symbol := ⟨⟨1⟩, 0⟩
    (Grammar.sample.leftFactor {}).result = .ok [⟨⟨1⟩, 3⟩] ∧
      Grammar.sample.symbols.kind? start = some .nonterminal ∧
      (Grammar.sample.leftFactor {}).grammar.language start = Grammar.sample.language start := by
  have hok := Grammar.leftFactor_sample
  have hkind : Grammar.sample.symbols.kind? ⟨⟨1⟩, 0⟩ = some .nonterminal := by
    decide +kernel
  exact ⟨hok, hkind, ((language_leftFactor Grammar.reachable_sample hok).1 _ hkind).2⟩

end Run

end TopDown.Transform.Factoring
