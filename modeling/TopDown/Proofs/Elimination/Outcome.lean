import TopDown.Proofs.Elimination.Convergence
import TopDown.Proofs.Grammar.Reachable

/-!
# The outcome of an elimination

* `cycle?_eq_some`, `hiddenRecursion?_eq_some`: what the checks before a run report.
* `outcome_of_clear`: if nothing stands against it, the elimination commits sound drafts unless
  the limit stops it.
* `result_eliminateLeftRecursion`: which results there are, and when.
* `leftRecursion_eliminateLeftRecursion`: what is left of left recursion, and who gets a helper.
-/

namespace TopDown.Transform.Elimination

open Relation

variable {g : Grammar} {options : Options} {p : Progress} {served : List (Symbol × Symbol)}

/-! ## The checks before a run -/

theorem cycle?_eq_none_iff (hg : g.WellFormed) :
    cycle? g = none ↔ ∀ a, ¬Cyclic g.system.rules a := by
  rw [cycle?, Option.map_eq_none_iff, List.head?_eq_none_iff, List.eq_nil_iff_forall_not_mem]
  simp only [RuleSystem.mem_cyclic_iff hg.isScoped]

theorem cycle?_eq_some (hg : g.WellFormed) {error : Error} (h : cycle? g = some error) :
    ∃ a, Cyclic g.system.rules a ∧ (∀ b, Cyclic g.system.rules b → a.index ≤ b.index) ∧
      error = .cycle (g.displayName a) := by
  obtain ⟨a, ha, rfl⟩ := Option.map_eq_some_iff.mp h
  obtain ⟨rest, hrest⟩ := List.head?_eq_some_iff.mp ha
  have hmem : ∀ b, b ∈ g.system.cycles.cyclic ↔ Cyclic g.system.rules b := fun b =>
    RuleSystem.mem_cyclic_iff hg.isScoped
  have hsorted : g.system.cycles.cyclic.Pairwise (·.index < ·.index) :=
    SymbolRelation.pairwise_diagonal
  rw [hrest] at hmem hsorted
  refine ⟨a, (hmem a).mp List.mem_cons_self, fun b hb => ?_, rfl⟩
  rcases List.mem_cons.mp ((hmem b).mpr hb) with rfl | hb
  · exact Nat.le_refl _
  · exact Nat.le_of_lt ((List.pairwise_cons.mp hsorted).1 b hb)

theorem hiddenRecursion?_eq_none_iff (hg : g.WellFormed) :
    hiddenRecursion? g = none ↔ ∀ q ∈ g.productions, ¬Hides g.system.rules q.toRule := by
  rw [hiddenRecursion?, Option.map_eq_none_iff, List.find?_eq_none]
  simp only [RuleSystem.isSome_hiddenCorner?_iff hg.isScoped]

theorem hiddenRecursion?_eq_some (hg : g.WellFormed) {error : Error}
    (h : hiddenRecursion? g = some error) :
    ∃ before q after, g.productions = before ++ q :: after ∧
      (∀ q' ∈ before, ¬Hides g.system.rules q'.toRule) ∧ Hides g.system.rules q.toRule ∧
      error = .hiddenLeftRecursion (g.displayName q.lhs) q.label := by
  obtain ⟨q, hq, rfl⟩ := Option.map_eq_some_iff.mp h
  obtain ⟨hfound, before, after, hsplit, hbefore⟩ := List.find?_eq_some_iff_append.mp hq
  refine ⟨before, q, after, hsplit, fun q' hq' => ?_,
    (RuleSystem.isSome_hiddenCorner?_iff hg.isScoped).mp hfound, rfl⟩
  rw [← RuleSystem.isSome_hiddenCorner?_iff hg.isScoped]
  simpa using hbefore q' hq'

/-! ## A run against which nothing stands -/

theorem remainder?_eq_none (hcycle : ∀ s, ¬Cyclic g.system.rules s)
    (hp : Underway g options g.symbols.nonterminals served p) :
    remainder? p.grammar p.drafts = none := by
  rw [remainder?, Option.map_eq_none_iff, List.find?_eq_none]
  intro d hd hrecursive
  have hscoped : (p.grammar.draftSystem p.drafts).isScoped = true :=
    Grammar.isScoped_of_admits (forall_mem_rulesOf_iff.mpr hp.tracks.admits)
  obtain ⟨a, ha⟩ := (RuleSystem.exists_isSome_recursion?_iff hscoped).mp
    ⟨d.toRule, mem_rulesOf hd, hrecursive⟩
  exact hp.not_transGen_corner hcycle a (leftRecursive_iff.mp ha)

theorem Underway.journal {earlier : List Symbol} (hp : Underway g options earlier served p)
    (journal : Array Event) : Underway g options earlier served { p with journal } :=
  ⟨hp.tracks.journal journal, hp.helpers, hp.bases, hp.recursive, hp.serves, hp.sound, hp.ordered,
    hp.seeded⟩

variable (options) in
theorem underway_of_prefix (hg : g.WellFormed) (hcycle : cycle? g = none)
    (hhidden : hiddenRecursion? g = none) (journal : Array Event) {treated : List Symbol}
    (htreated : treated <+: g.symbols.nonterminals) :
    Meets (fun q => ∃ served, Underway g options treated served q)
      (fun f => ∃ name, f.error = .tooManyProductions options.limit name)
      (treatAll options (g.system.vanishingCorners g.system.nullable) [] (.start g journal)
        treated) := by
  have hhides : ∀ r ∈ g.system.rules, ¬Hides g.system.rules r :=
    List.forall_mem_map.mpr ((hiddenRecursion?_eq_none_iff hg).mp hhidden)
  exact underway_treatAll options hg ((cycle?_eq_none_iff hg).mp hcycle)
    (fun _ _ => RuleSystem.holds_vanishingCorners_iff hg.isScoped)
    (underway_start hg hhides journal) htreated

variable (options) in
theorem underway_of_clear (hg : g.WellFormed) (hcycle : cycle? g = none)
    (hhidden : hiddenRecursion? g = none) (journal : Array Event) :
    Meets (fun q => ∃ served, Underway g options g.symbols.nonterminals served q)
      (fun f => ∃ name, f.error = .tooManyProductions options.limit name)
      (treatAll options (g.system.vanishingCorners g.system.nullable) [] (.start g journal)
        g.symbols.nonterminals) :=
  underway_of_prefix options hg hcycle hhidden journal List.prefix_rfl

/-- A run against which nothing stands ends in a commit. -/
theorem conclude_of_clear (hg : g.WellFormed) (hcycle : cycle? g = none)
    (hhidden : hiddenRecursion? g = none) {journal : Array Event} {p : Progress}
    (hok : treatAll options (g.system.vanishingCorners g.system.nullable) [] (.start g journal)
      g.symbols.nonterminals = .ok p) :
    ∃ served journal', Underway g options g.symbols.nonterminals served p ∧
      conclude p = { p with journal := journal' }.commit := by
  have hrun := underway_of_clear options hg hcycle hhidden journal
  rw [hok] at hrun
  obtain ⟨served, hserved⟩ := hrun
  rcases conclude_cases p with ⟨journal', hcommit⟩ | ⟨journal', error, hsome, -⟩
  · exact ⟨served, journal', hserved, hcommit⟩
  · rw [remainder?_eq_none ((cycle?_eq_none_iff hg).mp hcycle) hserved] at hsome
    cases hsome

/-- **Nothing but the limit stops a run** against which nothing stands at the start. -/
theorem outcome_of_clear (hg : g.WellFormed) (hcycle : cycle? g = none)
    (hhidden : hiddenRecursion? g = none) :
    (∃ name, (g.eliminateLeftRecursion options).result =
        .error (.tooManyProductions options.limit name)) ∨
      ∃ served p, Underway g options g.symbols.nonterminals served p ∧
        g.eliminateLeftRecursion options = p.commit := by
  have hrun := underway_of_clear options hg hcycle hhidden
    (#[.ofClosure g.system] ++
      #[.ofClosure g.system, .eliminating g.symbols.nonterminals.length])
  rw [eliminateLeftRecursion_of_clear hcycle hhidden]
  dsimp only [run]
  split
  · rename_i failure hfail
    rw [hfail] at hrun
    obtain ⟨name, hname⟩ := hrun
    exact Or.inl ⟨name, congrArg Except.error hname⟩
  · rename_i p hp
    obtain ⟨served, journal, hserved, hcommit⟩ := conclude_of_clear hg hcycle hhidden hp
    exact Or.inr ⟨served, _, hserved.journal journal, hcommit⟩

/-! ## Which results there are -/

variable (options)

theorem result_of_cyclic (hg : g.WellFormed) (h : ∃ a, Cyclic g.system.rules a) :
    ∃ a, Cyclic g.system.rules a ∧ (∀ b, Cyclic g.system.rules b → a.index ≤ b.index) ∧
      (g.eliminateLeftRecursion options).result = .error (.cycle (g.displayName a)) := by
  cases hcycle : cycle? g with
  | none =>
      obtain ⟨a, ha⟩ := h
      exact absurd ha ((cycle?_eq_none_iff hg).mp hcycle a)
  | some error =>
      obtain ⟨a, ha, hfirst, rfl⟩ := cycle?_eq_some hg hcycle
      refine ⟨a, ha, hfirst, ?_⟩
      rw [Grammar.eliminateLeftRecursion, hcycle]

theorem result_of_hides (hg : g.WellFormed) (hcycle : ∀ a, ¬Cyclic g.system.rules a)
    (h : ∃ q ∈ g.productions, Hides g.system.rules q.toRule) :
    ∃ before q after, g.productions = before ++ q :: after ∧
      (∀ q' ∈ before, ¬Hides g.system.rules q'.toRule) ∧ Hides g.system.rules q.toRule ∧
      (g.eliminateLeftRecursion options).result =
        .error (.hiddenLeftRecursion (g.displayName q.lhs) q.label) := by
  cases hhidden : hiddenRecursion? g with
  | none =>
      obtain ⟨q, hq, hq'⟩ := h
      exact absurd hq' ((hiddenRecursion?_eq_none_iff hg).mp hhidden q hq)
  | some error =>
      obtain ⟨before, q, after, hsplit, hbefore, hq, rfl⟩ := hiddenRecursion?_eq_some hg hhidden
      refine ⟨before, q, after, hsplit, hbefore, hq, ?_⟩
      rw [Grammar.eliminateLeftRecursion, (cycle?_eq_none_iff hg).mpr hcycle, hhidden]

theorem result_of_clear (hg : g.WellFormed) (hcycle : ∀ a, ¬Cyclic g.system.rules a)
    (hhides : ∀ q ∈ g.productions, ¬Hides g.system.rules q.toRule) :
    (∃ name, (g.eliminateLeftRecursion options).result =
        .error (.tooManyProductions options.limit name)) ∨
      ∃ helpers, (g.eliminateLeftRecursion options).result = .ok helpers := by
  refine (outcome_of_clear hg ((cycle?_eq_none_iff hg).mpr hcycle)
    ((hiddenRecursion?_eq_none_iff hg).mpr hhides)).imp_right ?_
  rintro ⟨served, p, hp, heq⟩
  rw [heq]
  exact ⟨_, (hp.tracks.commit_eq hg).1⟩

/-- **The checks before a run are exactly what it needs.** A cycle is reported if and only if
some nonterminal derives itself alone, and names the one created first; hidden left recursion is
reported if and only if there is no such nonterminal and some production hides left recursion,
and names the first of them. In every other case the elimination succeeds or the limit stops it,
and there is no other way for a run to fail. -/
theorem result_eliminateLeftRecursion (hg : g.Reachable) :
    let result := (g.eliminateLeftRecursion options).result
    ((∃ name, result = .error (.cycle name)) ↔ ∃ a, Cyclic g.system.rules a) ∧
    (∀ name, result = .error (.cycle name) → ∃ a, Cyclic g.system.rules a ∧
      (∀ b, Cyclic g.system.rules b → a.index ≤ b.index) ∧ name = g.displayName a) ∧
    ((∃ name label, result = .error (.hiddenLeftRecursion name label)) ↔
      (∀ a, ¬Cyclic g.system.rules a) ∧ ∃ q ∈ g.productions, Hides g.system.rules q.toRule) ∧
    (∀ name label, result = .error (.hiddenLeftRecursion name label) →
      ∃ before q after, g.productions = before ++ q :: after ∧
        (∀ q' ∈ before, ¬Hides g.system.rules q'.toRule) ∧ Hides g.system.rules q.toRule ∧
        name = g.displayName q.lhs ∧ label = q.label) ∧
    ((∀ a, ¬Cyclic g.system.rules a) → (∀ q ∈ g.productions, ¬Hides g.system.rules q.toRule) →
      (∃ name, result = .error (.tooManyProductions options.limit name)) ∨
        ∃ helpers, result = .ok helpers) ∧
    (∀ label, result ≠ .error (.notConverged label)) ∧
    (∀ cause, result ≠ .error (.refused cause)) ∧
    ∀ journal failure, cycle? g = none → hiddenRecursion? g = none →
      treatAll options (g.system.vanishingCorners g.system.nullable) [] (.start g journal)
        g.symbols.nonterminals = .error failure →
      ∃ name, failure.error = .tooManyProductions options.limit name := by
  intro result
  have hwf := hg.wellFormed
  have hrun : ∀ journal failure, cycle? g = none → hiddenRecursion? g = none →
      treatAll options (g.system.vanishingCorners g.system.nullable) [] (.start g journal)
        g.symbols.nonterminals = .error failure →
      ∃ name, failure.error = .tooManyProductions options.limit name := by
    intro journal failure hcycle hhidden hfail
    have hmeets := underway_of_clear options hwf hcycle hhidden journal
    rw [hfail] at hmeets
    exact hmeets
  -- In each case there is one result, and the other statements are about other results.
  by_cases hcyclic : ∃ a, Cyclic g.system.rules a
  · obtain ⟨a, ha, hfirst, hresult⟩ := result_of_cyclic options hwf hcyclic
    rw [show result = _ from hresult]
    refine ⟨iff_of_true ⟨_, rfl⟩ hcyclic, ?_, iff_of_false nofun fun h => h.1 a ha, nofun,
      fun h => absurd ha (h a), nofun, nofun, hrun⟩
    rintro _ ⟨⟩
    exact ⟨a, ha, hfirst, rfl⟩
  · have hcycle := not_exists.mp hcyclic
    by_cases hhides : ∃ q ∈ g.productions, Hides g.system.rules q.toRule
    · obtain ⟨before, q, after, hsplit, hbefore, hq, hresult⟩ :=
        result_of_hides options hwf hcycle hhides
      rw [show result = _ from hresult]
      refine ⟨iff_of_false nofun hcyclic, nofun, iff_of_true ⟨_, _, rfl⟩ ⟨hcycle, hhides⟩, ?_,
        fun _ h => ?_, nofun, nofun, hrun⟩
      · rintro _ _ ⟨⟩
        exact ⟨before, q, after, hsplit, hbefore, hq, rfl, rfl⟩
      · obtain ⟨q, hmem, hq⟩ := hhides
        exact absurd hq (h q hmem)
    · have hclear : ∀ q ∈ g.productions, ¬Hides g.system.rules q.toRule :=
        fun q hmem hq => hhides ⟨q, hmem, hq⟩
      rcases result_of_clear options hwf hcycle hclear with ⟨name, hresult⟩ | ⟨helpers, hresult⟩
      · rw [show result = _ from hresult]
        exact ⟨iff_of_false nofun hcyclic, nofun, iff_of_false nofun fun h => hhides h.2, nofun,
          fun _ _ => Or.inl ⟨name, rfl⟩, nofun, nofun, hrun⟩
      · rw [show result = _ from hresult]
        exact ⟨iff_of_false nofun hcyclic, nofun, iff_of_false nofun fun h => hhides h.2, nofun,
          fun _ _ => Or.inr ⟨helpers, rfl⟩, nofun, nofun, hrun⟩

/-- The elimination of the sample succeeds, so nothing in it derives itself alone. -/
theorem result_eliminateLeftRecursion_sample :
    (Grammar.sample.eliminateLeftRecursion {}).result = .ok [⟨⟨1⟩, 3⟩] ∧
      ∀ a, ¬Cyclic Grammar.sample.system.rules a := by
  have hok : (Grammar.sample.eliminateLeftRecursion {}).result = .ok [⟨⟨1⟩, 3⟩] := by
    decide +kernel
  refine ⟨hok, fun a ha => ?_⟩
  obtain ⟨name, hname⟩ :=
    (result_eliminateLeftRecursion {} Grammar.reachable_sample).1.mpr ⟨a, ha⟩
  rw [hok] at hname
  cases hname

/-! ## What is left of left recursion -/

variable {options}

/-- An elimination that succeeds commits what the invariant of the run speaks of. -/
theorem underway_of_ok (hg : g.WellFormed) {helpers : List Symbol}
    (hok : (g.eliminateLeftRecursion options).result = .ok helpers) :
    ∃ served p, Underway g options g.symbols.nonterminals served p ∧
      g.eliminateLeftRecursion options = p.commit := by
  obtain ⟨hcycle, hhidden, -⟩ := run_of_result_eq_ok hok
  refine (outcome_of_clear hg hcycle hhidden).resolve_left ?_
  rintro ⟨name, hname⟩
  rw [hok] at hname
  cases hname

theorem not_leftRecursive_of_ok (hg : g.WellFormed) {helpers : List Symbol}
    (hok : (g.eliminateLeftRecursion options).result = .ok helpers) (a : Symbol) :
    ¬LeftRecursive (g.eliminateLeftRecursion options).grammar.system.rules a := by
  have hcycle : ∀ s, ¬Cyclic g.system.rules s := by
    intro s hs
    obtain ⟨_, -, -, herror⟩ := result_of_cyclic options hg ⟨s, hs⟩
    rw [hok] at herror
    cases herror
  obtain ⟨served, p, hp, heq⟩ := underway_of_ok hg hok
  rw [heq, (hp.tracks.commit_eq hg).2.1, leftRecursive_iff]
  exact hp.not_transGen_corner hcycle a

theorem served_of_ok (hg : g.WellFormed) {helpers : List Symbol}
    (hok : (g.eliminateLeftRecursion options).result = .ok helpers) :
    ((∃ a, LeftRecursive g.system.rules a) → helpers ≠ []) ∧
      ∃ served : List (Symbol × Symbol), served.map Prod.fst = helpers ∧
        (served.map Prod.snd).Sublist g.symbols.nonterminals ∧
        ∀ q ∈ served, LeftRecursive g.system.rules q.2 ∧
          Serves g options (g.eliminateLeftRecursion options).grammar.symbols
            (g.eliminateLeftRecursion options).grammar.system.rules q.1 q.2 := by
  obtain ⟨served, p, hp, heq⟩ := underway_of_ok hg hok
  obtain ⟨hresult, hrules, hsymbols, -⟩ := hp.tracks.commit_eq hg
  rw [heq, hresult] at hok
  cases hok
  rw [heq, hrules, hsymbols]
  refine ⟨?_, served, hp.helpers, hp.bases, fun q hq => ⟨?_, hp.serves q hq⟩⟩
  · rintro ⟨a, ha⟩
    rw [← hp.helpers, Ne, List.map_eq_nil_iff]
    exact hp.served_ne_nil hg (leftRecursive_iff.mp ha)
  · exact leftRecursive_iff.mpr (hp.recursive q hq)

variable (options) in
/-- A run on a grammar without left recursion finds nothing to do. -/
theorem unchanged_treatAll {corners : SymbolRelation}
    (hcorners : ∀ s t, corners.holds s t = true ↔ TransGen (Corner g.system.rules) s t)
    (hnone : ∀ a, ¬LeftRecursive g.system.rules a) (hp : p.Tracks g) (hchanged : p.changed = false)
    (earlier rest : List Symbol) :
    Meets (fun q => q.Tracks g ∧ q.changed = false) (fun _ => False)
      (treatAll options corners earlier p rest) := by
  have hrules : ∀ q : Progress, q.Tracks g → q.changed = false →
      rulesOf q.drafts = g.system.rules := by
    intro q hq hunchanged
    rw [(hq.untouched hunchanged).1, rules_eq_rulesOf]
  have hcorner : ∀ (a b : Symbol) γ, ⟨a, b :: γ⟩ ∈ g.system.rules → Corner g.system.rules a b :=
    fun a b γ hmem => ⟨_, hmem, rfl, [], γ, rfl, allVanish_nil, trivial⟩
  refine meets_treatAll (K := fun _ q => q.Tracks g ∧ q.changed = false) ?_ rfl ⟨hp, hchanged⟩
  intro earlier a later p _ hp
  refine meets_treat (J := fun _ q => q.Tracks g ∧ q.changed = false) hp ?_ ?_
  · rintro c _ q - ⟨hq, hunchanged⟩
    refine meets_substituteCorner (fun _ => ⟨hq, hunchanged⟩) ?_
    rintro hholds ⟨γ, hγ⟩
    rw [hrules q hq hunchanged] at hγ
    exact absurd (leftRecursive_iff.mpr (.head (hcorner a c γ hγ) ((hcorners c a).mp hholds)))
      (hnone a)
  · rintro q ⟨hq, hunchanged⟩
    have hdirect : ∀ γ, ⟨a, a :: γ⟩ ∉ rulesOf q.drafts := by
      intro γ hγ
      rw [hrules q hq hunchanged] at hγ
      exact hnone a (leftRecursive_iff.mpr (.single (hcorner a a γ hγ)))
    refine meets_removeDirect (fun _ => ⟨hq, hunchanged⟩) (fun h => hdirect [] h) ?_
    rintro ⟨γ, hγ⟩
    exact absurd hγ (hdirect γ)

theorem unchanged_of_not_leftRecursive (hg : g.WellFormed)
    (hnone : ∀ a, ¬LeftRecursive g.system.rules a) :
    (g.eliminateLeftRecursion options).result = .ok [] ∧
      (g.eliminateLeftRecursion options).grammar = g := by
  have hcycle : cycle? g = none :=
    (cycle?_eq_none_iff hg).mpr fun a ha => hnone a ha.leftRecursive
  have hhidden : hiddenRecursion? g = none :=
    (hiddenRecursion?_eq_none_iff hg).mpr fun q hq hhides =>
      hnone q.lhs (hhides.leftRecursive (List.mem_map_of_mem hq))
  have hrun := unchanged_treatAll options
    (fun _ _ => RuleSystem.holds_vanishingCorners_iff hg.isScoped) hnone
    (Progress.Tracks.start hg (#[.ofClosure g.system] ++
      #[.ofClosure g.system, .eliminating g.symbols.nonterminals.length])) rfl []
    g.symbols.nonterminals
  rw [eliminateLeftRecursion_of_clear hcycle hhidden]
  dsimp only [run]
  split
  · rename_i failure hfail
    rw [hfail] at hrun
    cases hrun
  · rename_i p hp
    rw [hp] at hrun
    obtain ⟨htracks, hchanged⟩ := hrun
    have hconclude : conclude p = p.commit := by
      rw [conclude, if_neg (by rw [hchanged]; exact Bool.false_ne_true)]
    obtain ⟨hgrammar, hresult⟩ := htracks.commit_of_unchanged hchanged
    rw [hconclude]
    exact ⟨hresult, hgrammar⟩

/-- **Elimination removes left recursion and nothing else.** If it succeeds, no symbol is
left-recursive afterwards, and both views of the analysis say so. Without left recursion it
succeeds and leaves the grammar as it is, whatever the limit. Otherwise, if it succeeds, there are
helpers, one for each of some nonterminals that were left-recursive. A second elimination after one
that succeeded changes nothing. -/
theorem leftRecursion_eliminateLeftRecursion (hg : g.Reachable) (options : Options) :
    let outcome := g.eliminateLeftRecursion options
    (∀ helpers, outcome.result = .ok helpers →
      (∀ a, ¬LeftRecursive outcome.grammar.system.rules a) ∧
        outcome.grammar.system.leftRecursion.hasLeftRecursion = false ∧
        outcome.grammar.system.leftRecursion.classified = []) ∧
    ((∀ a, ¬LeftRecursive g.system.rules a) → outcome.result = .ok [] ∧ outcome.grammar = g) ∧
    (∀ helpers, outcome.result = .ok helpers →
      ((∃ a, LeftRecursive g.system.rules a) → helpers ≠ []) ∧
        ∃ served : List (Symbol × Symbol), served.map Prod.fst = helpers ∧
          (served.map Prod.snd).Sublist g.symbols.nonterminals ∧ (served.map Prod.snd).Nodup ∧
          ∀ q ∈ served, LeftRecursive g.system.rules q.2 ∧
            Serves g options outcome.grammar.symbols outcome.grammar.system.rules q.1 q.2) ∧
    ∀ helpers again, outcome.result = .ok helpers →
      (outcome.grammar.eliminateLeftRecursion again).result = .ok [] ∧
        (outcome.grammar.eliminateLeftRecursion again).grammar = outcome.grammar := by
  intro outcome
  have hwf := hg.wellFormed
  have hafter : outcome.grammar.WellFormed := (hg.eliminated options).wellFormed
  refine ⟨fun helpers hok => ?_, unchanged_of_not_leftRecursive hwf, fun helpers hok => ?_,
    fun helpers again hok => ?_⟩
  · have hnone := not_leftRecursive_of_ok hwf hok
    exact ⟨hnone, (RuleSystem.hasLeftRecursion_eq_false_iff hafter.isScoped).mpr hnone,
      (RuleSystem.classified_eq_nil_iff hafter.isScoped).mpr hnone⟩
  · obtain ⟨hsome, served, hhelpers, hbases, hserved⟩ := served_of_ok hwf hok
    exact ⟨hsome, served, hhelpers, hbases, g.symbols.nodup_nonterminals.sublist hbases, hserved⟩
  · exact unchanged_of_not_leftRecursive hafter (not_leftRecursive_of_ok hwf hok)

/-- The sample is left-recursive; its elimination succeeds and leaves nothing to eliminate. -/
theorem leftRecursion_eliminateLeftRecursion_sample :
    let outcome := Grammar.sample.eliminateLeftRecursion {}
    LeftRecursive Grammar.sample.system.rules ⟨⟨1⟩, 0⟩ ∧ outcome.result = .ok [⟨⟨1⟩, 3⟩] ∧
      (∀ a, ¬LeftRecursive outcome.grammar.system.rules a) ∧
      (outcome.grammar.eliminateLeftRecursion {}).grammar = outcome.grammar := by
  have hok : (Grammar.sample.eliminateLeftRecursion {}).result = .ok [⟨⟨1⟩, 3⟩] := by
    decide +kernel
  have hrule : (⟨⟨⟨1⟩, 0⟩, [⟨⟨1⟩, 0⟩, ⟨⟨1⟩, 1⟩]⟩ : Rule) ∈ Grammar.sample.system.rules := by
    decide +kernel
  obtain ⟨hnone, -, -, hagain⟩ :=
    leftRecursion_eliminateLeftRecursion Grammar.reachable_sample {}
  exact ⟨⟨_, .of_mem hrule⟩, hok, (hnone _ hok).1, (hagain _ {} hok).2⟩

end TopDown.Transform.Elimination
