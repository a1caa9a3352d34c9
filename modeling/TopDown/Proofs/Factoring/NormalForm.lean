import TopDown.Proofs.Grammar.Reachable

/-!
# The normal form of left-factoring

* `Factored` says that no two alternatives of a nonterminal start with the same symbol;
  `factored_iff` tells it by the first symbols of each nonterminal.
* `filter_merge`: what a merge leaves alone; `heads_merge_of_ne` and `members_merge` are the
  alternatives of other nonterminals and those that start with another symbol.
* `factored_factorAll`: the nonterminals that are not in the queue are done, so at the end all are.
* `factored_leftFactor`: left-factoring reaches the normal form, and does nothing to a grammar that
  has it.
-/

namespace TopDown

/-- No two alternatives of a nonterminal start with the same symbol. -/
def Factored (rules : List Rule) : Prop :=
  rules.Pairwise fun r r' => r.lhs = r'.lhs → ∀ s, r.rhs.head? = some s → r'.rhs.head? ≠ some s

namespace Transform.Factoring

variable {a b head helper : Symbol} {name : String} {drafts : List Draft}

/-! ## First symbols -/

theorem sharedHead?_eq_none_iff : sharedHead? a drafts = none ↔ (heads a drafts).Nodup := by
  rw [sharedHead?, List.find?_eq_none, List.nodup_iff_count_le_one]
  simp only [decide_eq_true_eq, Nat.not_le, Nat.lt_succ_iff]
  constructor
  · intro h s
    by_cases hs : s ∈ heads a drafts
    · exact h s hs
    · rw [List.count_eq_zero_of_not_mem hs]
      exact Nat.zero_le 1
  · exact fun h s _ => h s

theorem factored_iff : Factored (rulesOf drafts) ↔ ∀ a, (heads a drafts).Nodup := by
  simp only [Factored, rulesOf, List.pairwise_map, List.Nodup, heads, List.pairwise_filterMap,
    List.pairwise_filter, decide_eq_true_eq]
  simp only [List.pairwise_iff_forall_sublist]
  constructor
  · rintro h a d d' hsub hd hd' s hs _ hs' rfl
    exact h hsub (hd.trans hd'.symm) s hs hs'
  · intro h d d' hsub heq s hs hs'
    exact h d.lhs hsub rfl heq.symm s hs s hs' rfl

theorem heads_eq_nil_of_forall (h : ∀ d ∈ drafts, d.lhs ≠ a) : heads a drafts = [] := by
  have hnone : drafts.filter (·.lhs = a) = [] :=
    List.filter_eq_nil_iff.mpr fun d hd hlhs => h d hd (of_decide_eq_true hlhs)
  rw [heads, hnone, List.filterMap_nil]

/-! ## What a merge leaves alone -/

theorem filter_mergeInto {keep fits : Draft → Bool} {merged : Draft → Draft}
    (hfits : ∀ d ∈ drafts, fits d = true → keep d = false)
    (hmerged : ∀ d ∈ drafts, fits d = true → keep (merged d) = false) :
    (mergeInto fits merged drafts).filter keep = drafts.filter keep := by
  induction drafts with
  | nil => rfl
  | cons d drafts ih =>
      rw [List.forall_mem_cons] at hfits hmerged
      unfold mergeInto
      split
      · rename_i hd
        rw [List.filter_cons_of_neg (by simp [hmerged.1 hd]),
          List.filter_cons_of_neg (by simp [hfits.1 hd]), List.filter_filter]
        -- What is kept fits nowhere, so dropping what fits drops none of it.
        refine List.filter_congr fun e hmem => ?_
        cases he : fits e with
        | true => rw [hfits.2 e hmem he, Bool.false_and]
        | false => rw [Bool.not_false, Bool.and_true]
      · rw [List.filter_cons, List.filter_cons, ih hfits.2 hmerged.2]

/-- What is neither merged nor made by a merge is left as it is. -/
theorem filter_merge {keep : Draft → Bool} (hmember : ∀ d ∈ members a head drafts, keep d = false)
    (hmerged : ∀ label,
      keep { label, lhs := a, rhs := beginning a head drafts ++ [helper] } = false)
    (hends : ∀ d : Draft, d.lhs = helper → d.rhs ∈ ends a head drafts → keep d = false) :
    (merge a head helper name drafts).filter keep = drafts.filter keep := by
  have hnone : (helperDrafts helper name (ends a head drafts)).filter keep = [] :=
    filter_helperDrafts_eq_nil hends
  rw [merge_eq, List.filter_append, hnone, List.append_nil]
  exact filter_mergeInto (fun d hd hfits => hmember d (List.mem_filter.mpr ⟨hd, hfits⟩))
    fun d _ _ => hmerged d.label

/-- The alternatives of other nonterminals are left as they are. -/
theorem filter_merge_of_ne (ha : b ≠ a) (hhelper : b ≠ helper) :
    (merge a head helper name drafts).filter (·.lhs = b) = drafts.filter (·.lhs = b) := by
  refine filter_merge (fun d hd => ?_) (fun _ => decide_eq_false ha.symm) fun d hd _ => ?_
  · rw [(isMember_iff.mp (List.mem_filter.mp hd).2).1]
    exact decide_eq_false ha.symm
  · rw [hd]
    exact decide_eq_false hhelper.symm

theorem heads_merge_of_ne (ha : b ≠ a) (hhelper : b ≠ helper) :
    heads b (merge a head helper name drafts) = heads b drafts := by
  rw [heads, filter_merge_of_ne ha hhelper]
  rfl

/-- Alternatives that start with another symbol are left as they are. -/
theorem members_merge {s : Symbol} (hany : drafts.any (isMember a head) = true)
    (hne : ¬(b = a ∧ s = head)) (hhelper : b ≠ helper) :
    members b s (merge a head helper name drafts) = members b s drafts := by
  have hother : ∀ d : Draft, d.lhs = a → d.rhs.head? = some head → isMember b s d = false := by
    intro d hlhs hhead
    rw [← Bool.not_eq_true, isMember_iff, ← List.head?_eq_some_iff, hlhs, hhead]
    rintro ⟨rfl, heq⟩
    exact hne ⟨rfl, (Option.some.inj heq).symm⟩
  refine filter_merge (fun d hd => ?_) (fun label => ?_) fun d hd _ => ?_
  · obtain ⟨hlhs, hhead⟩ := isMember_iff.mp (List.mem_filter.mp hd).2
    exact hother d hlhs (List.head?_eq_some_iff.mpr hhead)
  · refine hother _ rfl ?_
    rw [List.head?_append, head?_beginning hany]
    rfl
  · rw [← Bool.not_eq_true, isMember_iff, hd]
    exact fun h => hhelper h.1.symm

/-! ## The run -/

section Queue

variable {queue : List Symbol}

theorem nodup_heads_of_done (h : ∀ b, b ∉ a :: queue → (heads b drafts).Nodup)
    (hshared : sharedHead? a drafts = none) : ∀ b, b ∉ queue → (heads b drafts).Nodup := by
  intro b hb
  by_cases hba : b = a
  · rw [hba]
    exact sharedHead?_eq_none_iff.mp hshared
  · exact h b (List.not_mem_cons_of_ne_of_not_mem hba hb)

/-- A merge works on the nonterminal in front, which stays there, and its helper joins the
queue. -/
theorem nodup_heads_merge (h : ∀ b, b ∉ a :: queue → (heads b drafts).Nodup) :
    ∀ b, b ∉ a :: queue ++ [helper] → (heads b (merge a head helper name drafts)).Nodup := by
  intro b hb
  rw [List.mem_append, not_or, List.mem_singleton] at hb
  obtain ⟨hqueue, hhelper⟩ := hb
  rw [heads_merge_of_ne (List.ne_of_not_mem_cons hqueue) hhelper]
  exact h b hqueue

end Queue

variable {options : Options} {g : Grammar} {p : Progress}

/-- Symbols that are no nonterminals have no alternatives at all. -/
theorem nodup_heads_start (hg : g.WellFormed) :
    ∀ b, b ∉ g.symbols.nonterminals → (heads b (Progress.start g #[]).drafts).Nodup := by
  intro b hb
  rw [heads_eq_nil_of_forall]
  · exact List.nodup_nil
  · rintro d hd rfl
    exact hb (SymbolTable.mem_nonterminals_iff.mpr
      ((Progress.Tracks.start hg #[]).admits d hd).1)

variable (options) in
/-- Factoring from a queue leaves no shared first symbols, if outside the queue there are none. -/
theorem factored_factorAll {queue : List Symbol}
    (hp : ∀ b, b ∉ queue → (heads b p.drafts).Nodup) :
    Meets (fun q => Factored (rulesOf q.drafts)) (fun _ => True) (factorAll options p queue) := by
  have hrun : Meets (fun q => ∀ b, b ∉ ([] : List Symbol) → (heads b q.drafts).Nodup)
      (fun _ => True) (factorAll options p queue) := by
    refine meets_factorAll
      (K := fun queue q => ∀ b, b ∉ queue → (heads b q.drafts).Nodup)
      (fun _ _ _ => nodup_heads_of_done) (fun a queue p head hqueue _ => ?_) hp
    exact meets_step fun journal => ⟨nodup_heads_merge hqueue, trivial⟩
  cases hfinal : factorAll options p queue with
  | error failure => trivial
  | ok q =>
      rw [hfinal] at hrun
      exact factored_iff.mpr fun b => hrun b List.not_mem_nil

theorem factorAll_of_factored (h : Factored (rulesOf p.drafts)) (queue : List Symbol) :
    factorAll options p queue = .ok p := by
  induction queue with
  | nil => rw [factorAll]
  | cons a queue ih =>
      have hnone : sharedHead? a p.drafts = none :=
        sharedHead?_eq_none_iff.mpr (factored_iff.mp h a)
      rw [factorAll]
      split
      · exact ih
      · rename_i hsome
        rw [hnone] at hsome
        cases hsome

theorem factored_of_ok (hg : g.WellFormed) {helpers : List Symbol}
    (hok : (g.leftFactor options).result = .ok helpers) :
    Factored (g.leftFactor options).grammar.system.rules := by
  have htracks := tracks_factorAll options (Progress.Tracks.start hg #[]) g.symbols.nonterminals
  have hrun := factored_factorAll options (nodup_heads_start hg)
  obtain ⟨p, hp, heq⟩ := exists_of_result_eq_ok hok
  rw [hp] at htracks hrun
  rw [heq, (Progress.Tracks.commit_eq htracks hg).2.1]
  exact hrun

variable (options) in
theorem leftFactor_of_factored (hg : g.WellFormed) (h : Factored g.system.rules) :
    (g.leftFactor options).result = .ok [] ∧ (g.leftFactor options).grammar = g := by
  rw [rules_eq_rulesOf] at h
  obtain ⟨hgrammar, hresult⟩ := (Progress.Tracks.start hg #[]).commit_of_unchanged rfl
  rw [Grammar.leftFactor, factorAll_of_factored (p := .start g #[]) h]
  exact ⟨hresult, hgrammar⟩

/-- **Left-factoring reaches its normal form.** If it succeeds, no two alternatives of a
nonterminal, helpers included, start with the same symbol. On a grammar that has this form it
succeeds and leaves the grammar as it is, whatever the limit; so a second run after one that
succeeded changes nothing. -/
theorem factored_leftFactor (hg : g.Reachable) (options : Options) :
    let outcome := g.leftFactor options
    (∀ helpers, outcome.result = .ok helpers → Factored outcome.grammar.system.rules) ∧
    (Factored g.system.rules → outcome.result = .ok [] ∧ outcome.grammar = g) ∧
    ∀ helpers again, outcome.result = .ok helpers →
      (outcome.grammar.leftFactor again).result = .ok [] ∧
        (outcome.grammar.leftFactor again).grammar = outcome.grammar := by
  intro outcome
  have hafter : outcome.grammar.WellFormed := (hg.factored options).wellFormed
  refine ⟨fun helpers hok => factored_of_ok hg.wellFormed hok,
    leftFactor_of_factored options hg.wellFormed, fun helpers again hok => ?_⟩
  exact leftFactor_of_factored again hafter (factored_of_ok hg.wellFormed hok)

/-- Two alternatives of the sample start with the same symbol; factoring it takes one helper, and
factoring the result takes none. -/
theorem factored_leftFactor_sample :
    let outcome := Grammar.sample.leftFactor {}
    ¬Factored Grammar.sample.system.rules ∧ outcome.result = .ok [⟨⟨1⟩, 3⟩] ∧
      Factored outcome.grammar.system.rules ∧
      (outcome.grammar.leftFactor {}).grammar = outcome.grammar := by
  have hok := Grammar.leftFactor_sample
  obtain ⟨hfactored, hunchanged, hagain⟩ := factored_leftFactor Grammar.reachable_sample {}
  refine ⟨fun h => ?_, hok, hfactored _ hok, (hagain _ {} hok).2⟩
  have hnil := (hunchanged h).1
  rw [hok] at hnil
  cases hnil

end Transform.Factoring

end TopDown
