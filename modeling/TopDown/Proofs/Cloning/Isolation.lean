import TopDown.Proofs.Cloning.Queries
import TopDown.Proofs.Grammar.History

/-!
# Handles of other owners

A grammar does not accept a handle of another owner. An edit that mentions one, and against which
nothing else stands, finds nothing to erase or is refused, and the cause names such a handle; the
grammar stays as it was at that step. A question about such a handle is answered with nothing, or
shows the handle bare.

* `Edit.OtherwiseAcceptable`: the edit would be granted with other handles in the place of those of
  an owner.
* `ruleFault?_of_mentions`, `runChain_of_mentions` and `draftsFault?_of_mentions` find the first
  handle that is not accepted in a rule, in a chain and in a list of drafts;
  `build_of_mentions` adds what comes before a chain.
* `edit_of_mentions` and `query_of_mentions` are the results.
-/

namespace TopDown

/-- The translation replaces handles of one owner only. -/
structure Translation.Spares (t : Translation) (owner : Identity) : Prop where
  symbol : ∀ s : Symbol, s.owner ≠ owner → t.symbol s = s
  id : ∀ i : Production.Id, i.owner ≠ owner → t.id i = i

namespace Grammar

/-! ## Handles that are mentioned -/

def ChainStep.usedSymbols : ChainStep → List Symbol
  | .rule lhs => [lhs]
  | .label _ => []
  | .alternative rhs => rhs

def Edit.usedSymbols : Edit → List Symbol
  | .renameSymbol s _ => [s]
  | .eraseSymbol s => [s]
  | .setStart s => [s]
  | .addProduction _ lhs rhs => lhs :: rhs
  | .build lhs steps => lhs :: steps.flatMap ChainStep.usedSymbols
  | .setLhs _ lhs => [lhs]
  | .setRhs _ rhs => rhs
  | .replaceProductions drafts => drafts.flatMap fun d => d.lhs :: d.rhs
  | .addSymbol _ _ | .addSymbols _ _ | .clearStart | .eraseProduction _ | .setLabel _ _ => []

def Edit.usedIds : Edit → List Production.Id
  | .eraseProduction i => [i]
  | .setLhs i _ => [i]
  | .setRhs i _ => [i]
  | .setLabel i _ => [i]
  | .replaceProductions drafts => drafts.filterMap (·.origin)
  | .addSymbol _ _ | .addSymbols _ _ | .renameSymbol _ _ | .eraseSymbol _ | .setStart _
  | .clearStart | .addProduction _ _ _ | .build _ _ => []

def Query.usedSymbols : Query → List Symbol
  | .contains s => [s]
  | .issued s => [s]
  | .kindOf s => [s]
  | .isOfKind _ s => [s]
  | .nameOf s => [s]
  | .productionsOf lhs => [lhs]
  | .displayName s => [s]
  | .ruleText r => r.lhs :: r.rhs
  | _ => []

def Query.usedIds : Query → List Production.Id
  | .production i => [i]
  | _ => []

/-- Among handles there is one of an owner. -/
def Mentions (owner : Identity) (symbols : List Symbol) (ids : List Production.Id) : Prop :=
  (∃ s ∈ symbols, s.owner = owner) ∨ ∃ i ∈ ids, i.owner = owner

/-! ## What is said to them -/

/-- Nothing but the handles of an owner stands against an edit: with others in their place it is
not refused. -/
def Edit.OtherwiseAcceptable (owner : Identity) (g : Grammar) (e : Edit) : Prop :=
  ∃ t : Translation, t.Spares owner ∧ ∀ cause, ((t.edit e).apply g).2 ≠ .refused cause

/-- The cause of a refusal is a handle of an owner, which is none of the grammar. -/
inductive Blames (owner : Identity) (symbols : List Symbol) (ids : List Production.Id) :
    Error → Prop
  | symbol {s : Symbol} (hs : s ∈ symbols) (howner : s.owner = owner) :
      Blames owner symbols ids (.foreignSymbol s)
  | production {i : Production.Id} (hi : i ∈ ids) (howner : i.owner = owner) :
      Blames owner symbols ids (.unknownProduction i)

/-- The reply to an edit is that nothing is found, or blames a handle of an owner. -/
inductive Edit.Rebuffed (owner : Identity) (e : Edit) : Reply → Prop
  | nothing : Rebuffed owner e (.erased false)
  | refused {cause : Error} (hcause : Blames owner e.usedSymbols e.usedIds cause) :
      Rebuffed owner e (.refused cause)

/-- The grammar at the step of an edit that mentions an owner first. Only a chain has steps before
that one. -/
inductive Edit.UpTo (owner : Identity) (g : Grammar) : Edit → Grammar → Prop
  | start (e : Edit) : UpTo owner g e g
  | chain {lhs : Symbol} {before after : List ChainStep} {step : ChainStep} {g' : Grammar}
      (hbefore : ∀ s ∈ before.flatMap ChainStep.usedSymbols, s.owner ≠ owner)
      (hstep : ∃ s ∈ step.usedSymbols, s.owner = owner) (hrun : g.build lhs before = (g', none)) :
      UpTo owner g (.build lhs (before ++ step :: after)) g'

/-- The answer is that there is nothing, or shows the handles of an owner bare. -/
inductive Query.Rebuffed (owner : Identity) (q : Query) : Answer → Prop
  | truth : Rebuffed owner q (.truth false)
  | kind : Rebuffed owner q (.kind none)
  | name : Rebuffed owner q (.name none)
  | production : Rebuffed owner q (.production none)
  | productions : Rebuffed owner q (.productions [])
  | pieces {pieces : List Piece}
      (hshown : ∀ s ∈ q.usedSymbols, s.owner = owner → .handle s ∈ pieces) :
      Rebuffed owner q (.pieces pieces)

/-- The grammar does not accept the handles of an owner. -/
structure TurnsAway (owner : Identity) (g : Grammar) : Prop where
  edit : ∀ e : Edit, Mentions owner e.usedSymbols e.usedIds → e.OtherwiseAcceptable owner g →
    ∃ g' reply, e.UpTo owner g g' ∧ e.Rebuffed owner reply ∧ e.apply g = (g', reply)
  query : ∀ q : Query, Mentions owner q.usedSymbols q.usedIds → q.Rebuffed owner (q.run g)

variable {g : Grammar} {owner : Identity} {s : Symbol} {i : Production.Id} {t : Translation}

/-! ## Single handles -/

theorem mentions_symbol_iff : Mentions owner [s] [] ↔ s.owner = owner := by simp [Mentions]

theorem mentions_id_iff : Mentions owner [] [i] ↔ i.owner = owner := by simp [Mentions]

theorem mentions_nil_iff {symbols : List Symbol} :
    Mentions owner symbols [] ↔ ∃ s ∈ symbols, s.owner = owner := by simp [Mentions]

theorem not_mentions_nil : ¬Mentions owner [] [] := by simp [Mentions]

section Lookup

variable (howner : owner ≠ g.id)
include howner

theorem lookup?_of_owner (hs : s.owner = owner) : g.symbols.lookup? s = none :=
  if_neg fun heq => howner (hs.symm.trans heq)

theorem issued_of_owner (hs : s.owner = owner) : g.symbols.issued s = false := by
  have hne : s.owner ≠ g.symbols.id := fun heq => howner (hs.symm.trans heq)
  rw [SymbolTable.issued, decide_eq_false hne, Bool.false_and]

theorem symbolFault?_of_owner (hs : s.owner = owner) :
    g.symbolFault? s = some (.foreignSymbol s) := by
  rw [symbolFault?, SymbolTable.contains, lookup?_of_owner howner hs, issued_of_owner howner hs]
  rfl

theorem nonterminalFault?_of_owner (hs : s.owner = owner) :
    g.nonterminalFault? s = some (.foreignSymbol s) := by
  rw [nonterminalFault?, SymbolTable.kind?, lookup?_of_owner howner hs]
  exact symbolFault?_of_owner howner hs

theorem display_of_owner (hs : s.owner = owner) : g.display s = .handle s := by
  rw [display, SymbolTable.name?, lookup?_of_owner howner hs]
  rfl

variable (hg : g.WellFormed)
include hg

theorem production?_of_owner (hi : i.owner = owner) : g.production? i = none :=
  production?_eq_none_iff.mpr fun hmem => howner (hi.symm.trans (hg.of_mem_ids hmem).1)

theorem productionFault?_of_owner (hi : i.owner = owner) :
    g.productionFault? i = some (.unknownProduction i) := by
  rw [productionFault?, production?_of_owner howner hg hi]
  rfl

end Lookup

/-! ## Rules -/

theorem Blames.mono {symbols symbols' : List Symbol} {ids ids' : List Production.Id} {cause : Error}
    (h : Blames owner symbols ids cause) (hsymbols : symbols ⊆ symbols') (hids : ids ⊆ ids') :
    Blames owner symbols' ids' cause := by
  cases h with
  | symbol hs howner => exact .symbol (hsymbols hs) howner
  | production hi howner => exact .production (hids hi) howner

theorem rhsFault?_of_mentions (howner : owner ≠ g.id) (ht : t.Spares owner) {rhs : List Symbol}
    (hok : g.rhsFault? (rhs.map t.symbol) = none) (hrhs : ∃ s ∈ rhs, s.owner = owner) :
    ∃ cause, Blames owner rhs [] cause ∧ g.rhsFault? rhs = some cause := by
  induction rhs with
  | nil =>
      obtain ⟨s, hs, -⟩ := hrhs
      cases hs
  | cons s rhs ih =>
      obtain ⟨hs, hrest⟩ := List.forall_mem_cons.mp (rhsFault?_eq_none_iff.mp hok)
      rw [rhsFault?, List.findSome?_cons]
      by_cases hown : s.owner = owner
      · exact ⟨_, .symbol List.mem_cons_self hown, by rw [symbolFault?_of_owner howner hown]⟩
      · obtain ⟨s', hs', hown'⟩ := hrhs
        have hmem : s' ∈ rhs := (List.mem_cons.mp hs').resolve_left fun heq => hown (heq ▸ hown')
        obtain ⟨cause, hblames, hfault⟩ := ih (rhsFault?_eq_none_iff.mpr hrest) ⟨s', hmem, hown'⟩
        refine ⟨cause, hblames.mono (List.subset_cons_self _ _) (List.Subset.refl _), ?_⟩
        rw [symbolFault?_eq_none_iff.mpr (ht.symbol s hown ▸ hs)]
        exact hfault

theorem ruleFault?_of_mentions (howner : owner ≠ g.id) (ht : t.Spares owner) {r : Rule}
    (hok : g.ruleFault? (t.rule r) = none) (hr : ∃ s ∈ r.lhs :: r.rhs, s.owner = owner) :
    ∃ cause, Blames owner (r.lhs :: r.rhs) [] cause ∧ g.ruleFault? r = some cause := by
  obtain ⟨hlhs, hrhs⟩ := ruleFault?_eq_none_iff.mp hok
  rw [ruleFault?]
  by_cases hown : r.lhs.owner = owner
  · exact ⟨_, .symbol List.mem_cons_self hown, by rw [nonterminalFault?_of_owner howner hown]; rfl⟩
  · obtain ⟨s, hs, hown'⟩ := hr
    have hmem : s ∈ r.rhs := (List.mem_cons.mp hs).resolve_left fun heq => hown (heq ▸ hown')
    obtain ⟨cause, hblames, hfault⟩ :=
      rhsFault?_of_mentions howner ht (rhsFault?_eq_none_iff.mpr hrhs) ⟨s, hmem, hown'⟩
    refine ⟨cause, hblames.mono (List.subset_cons_self _ _) (List.Subset.refl _), ?_⟩
    have hkind : g.symbols.kind? r.lhs = some .nonterminal := ht.symbol r.lhs hown ▸ hlhs
    rw [nonterminalFault?_eq_none_iff.mpr hkind, hfault]
    rfl

theorem map_of_spares (ht : t.Spares owner) {u : List Symbol}
    (hu : ∀ s ∈ u, s.owner ≠ owner) : u.map t.symbol = u :=
  (List.map_congr_left fun s hs => ht.symbol s (hu s hs)).trans (List.map_id' u)

/-! ## Chains -/

theorem step_of_spares (ht : t.Spares owner) {step : ChainStep}
    (hstep : ∀ s ∈ step.usedSymbols, s.owner ≠ owner) : t.step step = step := by
  cases step with
  | rule lhs =>
      exact congrArg ChainStep.rule (ht.symbol lhs (hstep lhs (List.mem_singleton_self _)))
  | label label => rfl
  | alternative rhs => exact congrArg ChainStep.alternative (map_of_spares ht hstep)

/-- A step that is not refused leads from one state of the chain to another. -/
theorem exists_next {lhs : Symbol} {pending : Option String} {step : ChainStep}
    {steps : List ChainStep} (hlhs : lhs.owner ≠ owner)
    (hstep : ∀ s ∈ step.usedSymbols, s.owner ≠ owner)
    (hok : (g.runChain lhs pending (step :: steps)).2 = none) :
    ∃ (g' : Grammar) (lhs' : Symbol) (pending' : Option String),
      g'.id = g.id ∧ lhs'.owner ≠ owner ∧
        ∀ rest, g.runChain lhs pending (step :: rest) = g'.runChain lhs' pending' rest := by
  cases step with
  | rule lhs' =>
      rw [runChain] at hok
      cases hfault : g.nonterminalFault? lhs' with
      | some fault =>
          rw [hfault] at hok
          cases hok
      | none =>
          refine ⟨g, lhs', none, rfl, hstep lhs' (List.mem_singleton_self _), fun rest => ?_⟩
          rw [runChain, hfault]
  | label label => exact ⟨g, lhs, some label, rfl, hlhs, fun rest => rfl⟩
  | alternative rhs =>
      rw [runChain] at hok
      cases hadd : g.addProduction (pending.getD (g.defaultLabel lhs)) lhs rhs with
      | error fault =>
          rw [hadd] at hok
          cases hok
      | ok issued =>
          refine ⟨issued.2, lhs, none, (appends_addProduction hadd).id, hlhs, fun rest => ?_⟩
          rw [runChain, hadd]

theorem ruleFault?_eq_none_of_runChain {lhs : Symbol} {pending : Option String}
    {rhs : List Symbol} {steps : List ChainStep}
    (hok : (g.runChain lhs pending (.alternative rhs :: steps)).2 = none) :
    g.ruleFault? ⟨lhs, rhs⟩ = none := by
  rw [runChain, addProduction] at hok
  cases hfault : g.ruleFault? ⟨lhs, rhs⟩ with
  | none => rfl
  | some fault =>
      rw [hfault] at hok
      cases hok

/-- A chain stops at the first step that mentions an owner. -/
theorem runChain_of_mentions (howner : owner ≠ g.id) (ht : t.Spares owner) {lhs : Symbol}
    {pending : Option String} {steps : List ChainStep} (hlhs : lhs.owner ≠ owner)
    (hok : (g.runChain lhs pending (steps.map t.step)).2 = none)
    (hsteps : ∃ s ∈ steps.flatMap ChainStep.usedSymbols, s.owner = owner) :
    ∃ (before after : List ChainStep) (step : ChainStep) (g' : Grammar) (cause : Error),
      steps = before ++ step :: after ∧
      (∀ s ∈ before.flatMap ChainStep.usedSymbols, s.owner ≠ owner) ∧
      (∃ s ∈ step.usedSymbols, s.owner = owner) ∧
      g.runChain lhs pending before = (g', none) ∧ Blames owner step.usedSymbols [] cause ∧
      g.runChain lhs pending steps = (g', some cause) := by
  induction steps generalizing g lhs pending with
  | nil =>
      obtain ⟨s, hs, -⟩ := hsteps
      cases hs
  | cons step steps ih =>
      by_cases hstep : ∃ s ∈ step.usedSymbols, s.owner = owner
      · obtain ⟨s, hs, hown⟩ := hstep
        refine ⟨[], steps, step, g, ?_⟩
        cases step with
        | rule lhs' =>
            cases List.mem_singleton.mp hs
            refine ⟨_, rfl, by simp, ⟨s, hs, hown⟩, rfl, .symbol hs hown, ?_⟩
            rw [runChain, nonterminalFault?_of_owner howner hown]
        | label label => cases hs
        | alternative rhs =>
            have hrule : g.ruleFault? (t.rule ⟨lhs, rhs⟩) = none := by
              rw [Translation.rule, Rule.rename, ht.symbol lhs hlhs]
              exact ruleFault?_eq_none_of_runChain hok
            obtain ⟨cause, hblames, hfault⟩ := ruleFault?_of_mentions howner ht
              hrule ⟨s, List.mem_cons_of_mem lhs hs, hown⟩
            refine ⟨cause, rfl, by simp, ⟨s, hs, hown⟩, rfl, ?_, ?_⟩
            · cases hblames with
              | symbol hs' hown' =>
                  refine .symbol ((List.mem_cons.mp hs').resolve_left ?_) hown'
                  rintro rfl
                  exact hlhs hown'
              | production hi _ => cases hi
            · rw [runChain, addProduction, hfault]
              rfl
      · -- The translation leaves a step of others as it is, so the chain goes on behind it.
        have hown : ∀ s ∈ step.usedSymbols, s.owner ≠ owner := fun s hs heq => hstep ⟨s, hs, heq⟩
        rw [List.map_cons, step_of_spares ht hown] at hok
        obtain ⟨g', lhs', pending', hid, hlhs', hnext⟩ := exists_next hlhs hown hok
        rw [hnext] at hok
        have hrest : ∃ s ∈ steps.flatMap ChainStep.usedSymbols, s.owner = owner := by
          obtain ⟨s, hs, heq⟩ := hsteps
          rcases List.mem_append.mp hs with hs | hs
          · exact absurd heq (hown s hs)
          · exact ⟨s, hs, heq⟩
        obtain ⟨before, after, step', g'', cause, rfl, hbefore, hstep', hrun, hblames, hstop⟩ :=
          ih (hid ▸ howner) hlhs' hok hrest
        refine ⟨step :: before, after, step', g'', cause, rfl, ?_, hstep', ?_, hblames, ?_⟩
        · exact List.forall_mem_append.mpr ⟨hown, hbefore⟩
        · rw [hnext, hrun]
        · rw [hnext, hstop]

/-- A chain that starts with the left-hand side of another owner does nothing; another one stops at
the first step that mentions the owner. -/
theorem build_of_mentions (howner : owner ≠ g.id) (ht : t.Spares owner) {lhs : Symbol}
    {steps : List ChainStep} (hok : (g.build (t.symbol lhs) (steps.map t.step)).2 = none)
    (hused : ∃ s ∈ lhs :: steps.flatMap ChainStep.usedSymbols, s.owner = owner) :
    ∃ g' reply, Edit.UpTo owner g (.build lhs steps) g' ∧
      Edit.Rebuffed owner (.build lhs steps) reply ∧
      Edit.apply g (.build lhs steps) = (g', reply) := by
  by_cases hlhs : lhs.owner = owner
  · refine ⟨g, _, .start _, .refused (.symbol List.mem_cons_self hlhs), ?_⟩
    rw [Edit.apply, build, runChain, nonterminalFault?_of_owner howner hlhs]
  · rw [ht.symbol lhs hlhs, build, runChain] at hok
    cases hfault : g.nonterminalFault? lhs with
    | some fault =>
        rw [hfault] at hok
        cases hok
    | none =>
        rw [hfault] at hok
        have hrun : ∀ steps, g.build lhs steps = g.runChain lhs none steps := by
          intro steps
          rw [build, runChain, hfault]
        have hsteps : ∃ s ∈ steps.flatMap ChainStep.usedSymbols, s.owner = owner := by
          obtain ⟨s, hs, heq⟩ := hused
          exact ⟨s, (List.mem_cons.mp hs).resolve_left fun hs => hlhs (hs ▸ heq), heq⟩
        obtain ⟨before, after, step, g', cause, rfl, hbefore, hstep, hbegun, hblames, hstop⟩ :=
          runChain_of_mentions howner ht hlhs hok hsteps
        refine ⟨g', _, .chain hbefore hstep ((hrun before).trans hbegun),
          .refused (hblames.mono (fun s hs => ?_) (List.nil_subset _)), ?_⟩
        · exact List.mem_cons_of_mem lhs
            (List.mem_flatMap.mpr ⟨step, List.mem_append_right _ List.mem_cons_self, hs⟩)
        · rw [Edit.apply, hrun, hstop]

/-! ## Lists of drafts -/

theorem draftFault?_of_origin {kept : List Production.Id} {d : Draft} {cause : Error}
    (hrule : g.ruleFault? d.toRule = none) (horigin : d.origin = some i)
    (hfault : g.productionFault? i = some cause) : g.draftFault? kept d = some cause := by
  rw [draftFault?, hrule, horigin]
  show (g.productionFault? i <|> _) = _
  rw [hfault]
  rfl

theorem draftsFault?_of_mentions (howner : owner ≠ g.id) (hg : g.WellFormed) (ht : t.Spares owner)
    {kept : List Production.Id} {drafts : List Draft}
    (hok : g.draftsFault? kept (drafts.map t.draft) = none)
    (hdrafts : Mentions owner (drafts.flatMap fun d => d.lhs :: d.rhs)
      (drafts.filterMap (·.origin))) :
    ∃ cause, Blames owner (drafts.flatMap fun d => d.lhs :: d.rhs) (drafts.filterMap (·.origin))
      cause ∧ g.draftsFault? kept drafts = some cause := by
  induction drafts generalizing kept with
  | nil => exact absurd hdrafts not_mentions_nil
  | cons d drafts ih =>
      rw [List.map_cons, draftsFault?, Option.orElse_eq_orElse, Option.orElse_eq_or,
        Option.or_eq_none_iff] at hok
      have hrule : g.ruleFault? (t.rule d.toRule) = none :=
        ruleFault?_eq_none_iff.mpr (draftFault?_eq_none_iff.mp hok.1).1
      rw [draftsFault?, List.flatMap_cons]
      by_cases hsymbols : ∃ s ∈ d.lhs :: d.rhs, s.owner = owner
      · obtain ⟨cause, hblames, hfault⟩ := ruleFault?_of_mentions howner ht hrule hsymbols
        refine ⟨cause, hblames.mono (List.subset_append_left _ _) (List.nil_subset _), ?_⟩
        rw [draftFault?, hfault]
        rfl
      · -- The rule is then one that the translation leaves alone, so it was admitted as it is.
        have hown : ∀ s ∈ d.lhs :: d.rhs, s.owner ≠ owner := fun s hs heq => hsymbols ⟨s, hs, heq⟩
        obtain ⟨hlhs, hrhs⟩ := List.forall_mem_cons.mp hown
        have hsame : t.rule d.toRule = d.toRule :=
          congrArg₂ Rule.mk (ht.symbol _ hlhs) (map_of_spares ht hrhs)
        by_cases horigin : ∃ i, d.origin = some i ∧ i.owner = owner
        · obtain ⟨i, hi, hiown⟩ := horigin
          refine ⟨_, .production (i := i) ?_ hiown, ?_⟩
          · rw [List.filterMap_cons, hi]
            exact List.mem_cons_self
          · have hfault := productionFault?_of_owner howner hg hiown
            rw [draftFault?_of_origin (hsame ▸ hrule) hi hfault]
            rfl
        · have hkept : d.origin.map t.id = d.origin := by
            cases hi : d.origin with
            | none => rfl
            | some i => exact congrArg some (ht.id i fun heq => horigin ⟨i, hi, heq⟩)
          have hdraft : t.draft d = d := by
            show Draft.mk (t.rule d.toRule) (d.origin.map t.id) d.label = d
            rw [hsame, hkept]
          rw [hdraft] at hok
          have hrest : Mentions owner (drafts.flatMap fun d => d.lhs :: d.rhs)
              (drafts.filterMap (·.origin)) := by
            rcases hdrafts with ⟨s, hs, heq⟩ | ⟨i, hi, heq⟩
            · rw [List.flatMap_cons] at hs
              exact Or.inl ⟨s, (List.mem_append.mp hs).resolve_left fun hs => hown s hs heq, heq⟩
            · obtain ⟨d', hd', hi'⟩ := List.mem_filterMap.mp hi
              rcases List.mem_cons.mp hd' with rfl | hd'
              · exact absurd ⟨i, hi', heq⟩ horigin
              · exact Or.inr ⟨i, List.mem_filterMap.mpr ⟨d', hd', hi'⟩, heq⟩
          obtain ⟨cause, hblames, hfault⟩ := ih hok.2 hrest
          refine ⟨cause, hblames.mono (List.subset_append_right _ _) ?_, ?_⟩
          · exact ((List.sublist_cons_self d drafts).filterMap _).subset
          · rw [hok.1]
            exact hfault

/-! ## Edits and questions -/

theorem eq_none_of_settle {fault? : Option Error} {g' : Grammar}
    (hok : ∀ cause, (Edit.settle g (grant fault? g')).2 ≠ .refused cause) : fault? = none := by
  cases fault? with
  | none => rfl
  | some cause => exact absurd rfl (hok cause)

/-- **Edits do not accept handles of another owner.** -/
theorem edit_of_mentions (howner : owner ≠ g.id) (hg : g.WellFormed) (e : Edit)
    (he : Mentions owner e.usedSymbols e.usedIds) (hok : e.OtherwiseAcceptable owner g) :
    ∃ g' reply, e.UpTo owner g g' ∧ e.Rebuffed owner reply ∧ e.apply g = (g', reply) := by
  obtain ⟨t, ht, hok⟩ := hok
  -- Most edits are checked before anything is done.
  have hrefused : ∀ {fault? g'} (cause : Error), Blames owner e.usedSymbols e.usedIds cause →
      fault? = some cause → e.apply g = Edit.settle g (grant fault? g') →
      ∃ g' reply, e.UpTo owner g g' ∧ e.Rebuffed owner reply ∧ e.apply g = (g', reply) := by
    intro fault? g' cause hblames hfault happly
    refine ⟨g, .refused cause, .start e, .refused hblames, ?_⟩
    rw [happly, hfault]
    rfl
  cases e with
  | addSymbol kind name => exact absurd he not_mentions_nil
  | addSymbols kind names => exact absurd he not_mentions_nil
  | clearStart => exact absurd he not_mentions_nil
  | renameSymbol s name =>
      have hs : s.owner = owner := mentions_symbol_iff.mp he
      exact hrefused _ (.symbol List.mem_cons_self hs) (symbolFault?_of_owner howner hs) rfl
  | eraseSymbol s =>
      have hs : s.owner = owner := mentions_symbol_iff.mp he
      refine ⟨g, .erased false, .start _, .nothing, ?_⟩
      rw [Edit.apply, eraseSymbol, SymbolTable.erase?, lookup?_of_owner howner hs]
      rfl
  | setStart s =>
      have hs : s.owner = owner := mentions_symbol_iff.mp he
      exact hrefused _ (.symbol List.mem_cons_self hs) (nonterminalFault?_of_owner howner hs) rfl
  | addProduction label lhs rhs =>
      have hrule : g.ruleFault? (t.rule ⟨lhs, rhs⟩) = none := by
        cases hfault : g.ruleFault? (t.rule ⟨lhs, rhs⟩) with
        | none => rfl
        | some cause =>
            refine absurd ?_ (hok cause)
            show (Edit.apply g (.addProduction label (t.rule ⟨lhs, rhs⟩).lhs
              (t.rule ⟨lhs, rhs⟩).rhs)).2 = _
            rw [Edit.apply, addProduction, hfault]
            rfl
      obtain ⟨cause, hblames, hfault⟩ :=
        ruleFault?_of_mentions howner ht hrule (mentions_nil_iff.mp he)
      refine ⟨g, .refused cause, .start _, .refused hblames, ?_⟩
      rw [Edit.apply, addProduction, hfault]
      rfl
  | build lhs steps =>
      have hbuild : (g.build (t.symbol lhs) (steps.map t.step)).2 = none := by
        cases hchain : g.build (t.symbol lhs) (steps.map t.step) with
        | mk g' fault? =>
            cases fault? with
            | none => rfl
            | some cause =>
                refine absurd ?_ (hok cause)
                rw [Translation.edit, Edit.apply, hchain]
      exact build_of_mentions howner ht hbuild (mentions_nil_iff.mp he)
  | eraseProduction i =>
      have hi : i.owner = owner := mentions_id_iff.mp he
      refine ⟨g, .erased false, .start _, .nothing, ?_⟩
      rw [Edit.apply, eraseProduction?, production?_of_owner howner hg hi]
      rfl
  | setLhs i lhs =>
      have hnone : (g.nonterminalFault? (t.symbol lhs) <|> g.productionFault? (t.id i)) = none :=
        eq_none_of_settle hok
      by_cases hlhs : lhs.owner = owner
      · refine hrefused _ (.symbol List.mem_cons_self hlhs) ?_ rfl
        rw [nonterminalFault?_of_owner howner hlhs]
        rfl
      · have hi : i.owner = owner := by
          simpa [Mentions, Edit.usedSymbols, Edit.usedIds, hlhs] using he
        refine hrefused _ (.production List.mem_cons_self hi) ?_ rfl
        rw [Option.orElse_eq_orElse, Option.orElse_eq_or, Option.or_eq_none_iff,
          ht.symbol lhs hlhs] at hnone
        rw [hnone.1, productionFault?_of_owner howner hg hi]
        rfl
  | setRhs i rhs =>
      have hnone : (g.rhsFault? (rhs.map t.symbol) <|> g.productionFault? (t.id i)) = none :=
        eq_none_of_settle hok
      rw [Option.orElse_eq_orElse, Option.orElse_eq_or, Option.or_eq_none_iff] at hnone
      by_cases hrhs : ∃ s ∈ rhs, s.owner = owner
      · obtain ⟨cause, hblames, hfault⟩ := rhsFault?_of_mentions howner ht hnone.1 hrhs
        refine hrefused cause (hblames.mono (List.Subset.refl _) (List.nil_subset _)) ?_ rfl
        rw [hfault]
        rfl
      · have hown : ∀ s ∈ rhs, s.owner ≠ owner := fun s hs heq => hrhs ⟨s, hs, heq⟩
        have hi : i.owner = owner := by
          obtain ⟨j, hj, heq⟩ := he.resolve_left hrhs
          exact List.mem_singleton.mp hj ▸ heq
        refine hrefused _ (.production List.mem_cons_self hi) ?_ rfl
        rw [map_of_spares ht hown] at hnone
        rw [hnone.1, productionFault?_of_owner howner hg hi]
        rfl
  | setLabel i label =>
      have hi : i.owner = owner := mentions_id_iff.mp he
      exact hrefused _ (.production List.mem_cons_self hi)
        (productionFault?_of_owner howner hg hi) rfl
  | replaceProductions drafts =>
      obtain ⟨cause, hblames, hfault⟩ :=
        draftsFault?_of_mentions howner hg ht (eq_none_of_settle hok) he
      exact hrefused cause hblames hfault rfl

/-- **Questions know nothing of handles of another owner.** -/
theorem query_of_mentions (howner : owner ≠ g.id) (hg : g.WellFormed) (q : Query)
    (hq : Mentions owner q.usedSymbols q.usedIds) : q.Rebuffed owner (q.run g) := by
  have hlookup : ∀ {s : Symbol}, s.owner = owner → g.symbols.lookup? s = none :=
    fun hs => lookup?_of_owner howner hs
  cases q with
  | contains s =>
      have hs : s.owner = owner := mentions_symbol_iff.mp hq
      rw [Query.run, SymbolTable.contains, hlookup hs]
      exact .truth
  | issued s =>
      have hs : s.owner = owner := mentions_symbol_iff.mp hq
      rw [Query.run, issued_of_owner howner hs]
      exact .truth
  | kindOf s =>
      have hs : s.owner = owner := mentions_symbol_iff.mp hq
      rw [Query.run, SymbolTable.kind?, hlookup hs]
      exact .kind
  | isOfKind kind s =>
      have hs : s.owner = owner := mentions_symbol_iff.mp hq
      rw [Query.run, SymbolTable.kind?, hlookup hs]
      exact .truth
  | nameOf s =>
      have hs : s.owner = owner := mentions_symbol_iff.mp hq
      rw [Query.run, SymbolTable.name?, hlookup hs]
      exact .name
  | production i =>
      have hi : i.owner = owner := mentions_id_iff.mp hq
      rw [Query.run, production?_of_owner howner hg hi]
      exact .production
  | productionsOf lhs =>
      have hs : lhs.owner = owner := mentions_symbol_iff.mp hq
      have hnil : g.productionsOf lhs = [] := by
        refine List.filter_eq_nil_iff.mpr fun p hp heq => ?_
        have hlive := SymbolTable.contains_of_kind? (hg.admits p hp).1
        rw [of_decide_eq_true heq] at hlive
        exact howner (hs.symm.trans (SymbolTable.lt_of_contains hlive).1)
      rw [Query.run, hnil]
      exact .productions
  | displayName s =>
      refine .pieces fun s' hs' hown => ?_
      rw [List.mem_singleton.mp hs'] at hown ⊢
      rw [display_of_owner howner hown]
      exact List.mem_singleton_self _
  | ruleText r =>
      refine .pieces fun s hs hown => ?_
      have hshown : .handle s = g.display s := (display_of_owner howner hown).symm
      rw [hshown]
      exact display_mem_rulePieces hs
  | _ => exact absurd hq not_mentions_nil

end Grammar

end TopDown
