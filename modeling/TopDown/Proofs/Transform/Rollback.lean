import TopDown.Proofs.Grammar.Reachable
import TopDown.Proofs.Transform.FreshName

/-!
# Failed transformations

A transformation that fails takes its helpers back. The productions of the grammar were not
touched and mention no helper, so each helper can be erased, and nothing remains of it but an
index.

* `Grammar.Reverts g after`: `after` is `g` with some more indices of erased symbols.
* `Progress.Reversible`: a progress that tracks a grammar, and whose helpers have names of their
  own. Every step of a run keeps it.
* `Reversible.abort`: giving up a reversible progress reverts to the grammar, and the names of the
  helpers are free.
* `reverts_of_error`: the two transformations revert if they fail.
-/

namespace TopDown

namespace SymbolTable

variable {table table' : SymbolTable} {s : Symbol}

theorem size_of_erase? (h : table.erase? s = some table') : table'.size = table.size := by
  obtain ⟨_, -, rfl⟩ := Option.map_eq_some_iff.mp h
  exact Array.size_setIfInBounds

theorem lookup?_of_erase?_eq_none (h : table.erase? s = none) : table.lookup? s = none :=
  Option.map_eq_none_iff.mp h

/-- Indices without an entry at the end of a table do not show among its live symbols. -/
theorem symbols_congr (hid : table'.id = table.id) (hsize : table.size ≤ table'.size)
    (hlookup : ∀ s, table'.lookup? s = table.lookup? s) : table'.symbols = table.symbols := by
  have hcontains : table'.contains = table.contains := by
    funext s
    rw [contains, contains, hlookup]
  obtain ⟨n, hn⟩ := Nat.exists_eq_add_of_le hsize
  have hnone : (((List.range n).map (table.size + ·)).map (Symbol.mk table.id)).filter
      table.contains = [] := by
    refine List.filter_eq_nil_iff.mpr fun s hs hlive => ?_
    simp only [List.mem_map] at hs
    obtain ⟨_, ⟨i, -, rfl⟩, rfl⟩ := hs
    exact Nat.not_lt.mpr (Nat.le_add_right _ i) (lt_of_contains hlive).2
  rw [symbols, symbols, hcontains, hid, hn, List.range_add, List.map_append, List.filter_append,
    hnone, List.append_nil]

end SymbolTable

namespace Grammar

variable {g after : Grammar} {s : Symbol}

/-- `after` is `g`, but for symbols that were issued and erased again. -/
structure Reverts (g after : Grammar) : Prop where
  id : after.id = g.id
  productions : after.productions = g.productions
  start : after.start = g.start
  nextSerial : after.nextSerial = g.nextSerial
  /-- The same symbols are live. -/
  live : after.symbols.symbols = g.symbols.symbols
  /-- Each has the kind and the name that it had. -/
  lookup : ∀ s, after.symbols.lookup? s = g.symbols.lookup? s
  /-- A handle that `g` has issued is as good or as bad as it was. -/
  fault : ∀ s, g.symbols.issued s = true → after.symbolFault? s = g.symbolFault? s
  /-- A handle that `g` has not issued is that of an erased symbol. -/
  erased : ∀ s, after.symbols.issued s = true → g.symbols.issued s = false →
    after.symbolFault? s = some (.removedSymbol s)
  /-- The same names are taken. -/
  names : ∀ name, after.symbols.isNameTaken name = g.symbols.isNameTaken name

theorem symbolFault?_of_lookup? (hs : g.symbols.issued s = true)
    (hlookup : g.symbols.lookup? s = none) : g.symbolFault? s = some (.removedSymbol s) := by
  rw [symbolFault?, if_neg (by simp [SymbolTable.contains, hlookup]), if_pos hs]

/-- Under another table with the same entries of its own handles and no others, all is as it
was. -/
theorem Reverts.of_lookup {table : SymbolTable} (hid : table.id = g.symbols.id)
    (hsize : g.symbols.size ≤ table.size)
    (hlookup : ∀ s, table.lookup? s = g.symbols.lookup? s) :
    Reverts g { g with symbols := table } where
  id := hid
  productions := rfl
  start := rfl
  nextSerial := rfl
  live := SymbolTable.symbols_congr hid hsize hlookup
  lookup := hlookup
  fault := by
    intro s hs
    have hs' : table.issued s = true := by
      rw [SymbolTable.issued, Bool.and_eq_true, decide_eq_true_eq, decide_eq_true_eq] at hs ⊢
      exact ⟨hs.1.trans hid.symm, Nat.lt_of_lt_of_le hs.2 hsize⟩
    show (if table.contains s = true then none else if table.issued s = true then _ else _) = _
    rw [hs', symbolFault?, hs, SymbolTable.contains, SymbolTable.contains, hlookup]
  erased := by
    intro s hs hnot
    refine symbolFault?_of_lookup? hs ((hlookup s).trans ?_)
    cases hentry : g.symbols.lookup? s with
    | none => rfl
    | some entry =>
        have hlive : g.symbols.contains s = true := Option.isSome_iff_exists.mpr ⟨entry, hentry⟩
        rw [SymbolTable.issued_of_contains hlive] at hnot
        cases hnot
  names := SymbolTable.isNameTaken_congr hlookup

theorem Reverts.refl (g : Grammar) : Reverts g g :=
  .of_lookup rfl (Nat.le_refl _) fun _ => rfl

end Grammar

namespace Transform

open Grammar

/-! ## Taking helpers back -/

namespace Progress

variable {g : Grammar} {p : Progress}

/-- A helper that is not in use is erased, or it was erased before. -/
theorem withdraw_eq {helper : Symbol} (h : ¬p.grammar.Uses helper) :
    ∃ table, (p.withdraw helper).grammar = { p.grammar with symbols := table } ∧
      table.id = p.grammar.symbols.id ∧ table.size = p.grammar.symbols.size ∧
      ∀ s, table.lookup? s = if s = helper then none else p.grammar.symbols.lookup? s := by
  cases herase : p.grammar.symbols.erase? helper with
  | none =>
      refine ⟨p.grammar.symbols, ?_, rfl, rfl, fun s => ?_⟩
      · rw [withdraw, Grammar.eraseSymbol, herase]
      · split
        · rename_i heq
          rw [heq, SymbolTable.lookup?_of_erase?_eq_none herase]
        · rfl
  | some table =>
      refine ⟨table, ?_, SymbolTable.id_of_erase? herase, SymbolTable.size_of_erase? herase,
        SymbolTable.lookup?_erase herase⟩
      rw [withdraw, Grammar.eraseSymbol, herase]
      dsimp only
      rw [eraseFault?_eq_none_iff.mpr h]
      rfl

/-- Taking back symbols that `g` does not have. Outside those that are still to be taken back, the
entries are those of `g` already. -/
theorem reverts_foldl_withdraw (hg : g.WellFormed) {helpers : List Symbol}
    (hhelpers : ∀ s ∈ helpers, g.symbols.contains s ≠ true) {table : SymbolTable}
    (hp : p.grammar = { g with symbols := table }) (hid : table.id = g.symbols.id)
    (hsize : g.symbols.size ≤ table.size)
    (hlookup : ∀ s, s ∉ helpers → table.lookup? s = g.symbols.lookup? s) :
    Reverts g (helpers.foldl withdraw p).grammar := by
  induction helpers generalizing p table with
  | nil =>
      rw [List.foldl_nil, hp]
      exact .of_lookup hid hsize fun s => hlookup s List.not_mem_nil
  | cons helper helpers ih =>
      have hhelper := hhelpers helper List.mem_cons_self
      have hunused : ¬p.grammar.Uses helper := by
        rw [hp]
        exact fun huses => hhelper (hg.contains_of_uses huses)
      obtain ⟨table', hp', hid', hsize', hlookup'⟩ := withdraw_eq hunused
      rw [hp] at hp' hid' hsize' hlookup'
      refine ih (fun s hs => hhelpers s (List.mem_cons_of_mem _ hs)) hp' (hid'.trans hid)
        (hsize.trans_eq hsize'.symm) fun s hs => (hlookup' s).trans ?_
      split
      · rename_i heq
        rw [heq]
        exact (Option.not_isSome_iff_eq_none.mp hhelper).symm
      · rename_i hne
        exact hlookup s (List.not_mem_cons_of_ne_of_not_mem hne hs)

/-- A transformation under way whose helpers have names of their own. -/
structure Reversible (g : Grammar) (p : Progress) : Prop where
  tracks : p.Tracks g
  apart : ∀ helper ∈ p.helpers, ∀ s,
    p.grammar.symbols.name? s = p.grammar.symbols.name? helper → s = helper

namespace Reversible

theorem start (hg : g.WellFormed) (journal : Array Event) :
    (Progress.start g journal).Reversible g :=
  ⟨.start hg journal, by rintro _ ⟨⟩⟩

/-- The name of a helper was free from the start. -/
theorem isNameTaken_eq_false (h : p.Reversible g) {helper : Symbol} (hhelper : helper ∈ p.helpers)
    {name : String} (hname : p.grammar.symbols.name? helper = some name) :
    g.symbols.isNameTaken name = false := by
  rw [← Bool.not_eq_true, SymbolTable.isNameTaken_iff]
  rintro ⟨s, hs⟩
  have hlive : g.symbols.contains s = true := by
    rw [SymbolTable.contains, ← Option.isSome_map (f := (·.name)), ← SymbolTable.name?, hs]
    rfl
  -- Symbols of the grammar have their names throughout, so this one would be the helper.
  have hs' : p.grammar.symbols.name? s = some name := by
    rw [SymbolTable.name?, h.tracks.lookup?_of_lt (SymbolTable.lt_of_contains hlive).2]
    exact hs
  have heq := h.apart helper hhelper s (hs'.trans hname.symm)
  exact h.tracks.not_contains_helper hhelper (heq ▸ hlive)

/-- A helper is issued under a fresh name, and the drafts change with it. -/
theorem introduce (h : p.Reversible g) {options : Options} {base : Symbol} {drafts : List Draft}
    {journal : Array Event}
    (htracks : { (p.introduce options base).2 with drafts, changed := true, journal }.Tracks g) :
    { (p.introduce options base).2 with drafts, changed := true, journal }.Reversible g := by
  refine ⟨htracks, fun helper hhelper s hs => ?_⟩
  change (p.introduce options base).2.grammar.symbols.name? s =
    (p.introduce options base).2.grammar.symbols.name? helper at hs
  -- Nobody has the fresh name before it is given away.
  have hfresh : ∀ t, p.grammar.symbols.name? t ≠
      some (p.grammar.symbols.freshName (p.name base) options.suffix) := by
    intro t ht
    have htaken := SymbolTable.isNameTaken_iff.mpr ⟨t, ht⟩
    rw [SymbolTable.isNameTaken_freshName] at htaken
    cases htaken
  rcases List.mem_append.mp hhelper with hold | hnew
  · have hne : helper ≠ (p.introduce options base).1 :=
      Progress.ne_introduce (h.tracks.contains_iff.mpr (Or.inr hold))
    rw [name?_introduce_of_ne hne] at hs
    by_cases hs' : s = (p.introduce options base).1
    · rw [hs', name?_introduce] at hs
      exact absurd hs.symm (hfresh helper)
    · rw [name?_introduce_of_ne hs'] at hs
      exact h.apart helper hold s hs
  · have heq : helper = (p.introduce options base).1 := List.mem_singleton.mp hnew
    rw [heq] at hs ⊢
    by_contra hs'
    rw [name?_introduce, name?_introduce_of_ne hs'] at hs
    exact hfresh s hs

/-- **Giving up.** The grammar is as it was, but for indices of erased symbols, and the names of
the helpers are free. -/
theorem abort {f : Failure} (h : f.progress.Reversible g) (hg : g.WellFormed) :
    Reverts g f.abort.grammar := by
  refine reverts_foldl_withdraw hg (fun s hs => h.tracks.not_contains_helper hs)
    h.tracks.grammar_eq h.tracks.id_eq ?_ ?_
  · obtain ⟨names, hn⟩ := h.tracks.issued
    rw [← (Prod.mk.inj hn).2]
    exact (Nat.le_add_right _ _).trans_eq SymbolTable.size_addAll.symm
  · intro s hs
    by_cases hlt : s.index < g.symbols.size
    · exact h.tracks.lookup?_of_lt hlt
    · have hnot : ¬g.symbols.contains s = true := fun hlive =>
        hlt (SymbolTable.lt_of_contains hlive).2
      have hnot' : ¬f.progress.grammar.symbols.contains s = true := fun hlive =>
        (h.tracks.contains_iff.mp hlive).elim hnot hs
      exact (Option.not_isSome_iff_eq_none.mp hnot').trans
        (Option.not_isSome_iff_eq_none.mp hnot).symm

end Reversible

end Progress

/-! ## Runs -/

section Runs

variable {g : Grammar} {p : Progress} (options : Options)

theorem Elimination.reversible_treatAll (corners : SymbolRelation) (h : p.Reversible g)
    (earlier rest : List Symbol) :
    Meets (·.Reversible g) (·.progress.Reversible g)
      (treatAll options corners earlier p rest) :=
  meets_treatAll_of_steps
    (fun _ _ _ _ _ _ _ hq _ _ journal => ⟨tracks_substitute hq.tracks journal, hq.apart⟩)
    (fun _ _ _ _ _ hq _ _ journal => hq.introduce (tracks_turnAround hq.tracks journal)) rfl h

theorem Factoring.reversible_factorAll (h : p.Reversible g) (queue : List Symbol) :
    Meets (·.Reversible g) (·.progress.Reversible g) (factorAll options p queue) :=
  meets_factorAll_of_merge
    (fun _ _ _ hq hshared journal => hq.introduce (tracks_merge hq.tracks hshared journal)) h queue

theorem reverts_of_commit (h : p.Reversible g) (hg : g.WellFormed) {error : Error}
    (herror : p.commit.result = .error error) : Reverts g p.commit.grammar := by
  rw [(h.tracks.commit_eq hg).1] at herror
  cases herror

theorem reverts_leftFactor (hg : g.WellFormed) {error : Error}
    (herror : (g.leftFactor options).result = .error error) :
    Reverts g (g.leftFactor options).grammar := by
  have hrun := Factoring.reversible_factorAll options (.start hg #[]) g.symbols.nonterminals
  unfold Grammar.leftFactor at herror ⊢
  split at herror
  · rename_i f hf
    rw [hf] at hrun
    exact Progress.Reversible.abort hrun hg
  · rename_i p hp
    rw [hp] at hrun
    exact reverts_of_commit hrun hg herror

theorem reverts_eliminateLeftRecursion (hg : g.WellFormed) {error : Error}
    (herror : (g.eliminateLeftRecursion options).result = .error error) :
    Reverts g (g.eliminateLeftRecursion options).grammar := by
  unfold Grammar.eliminateLeftRecursion at herror ⊢
  split at herror
  · exact .refl g
  · split at herror
    · exact .refl g
    · have hrun := Elimination.reversible_treatAll options
        (g.system.vanishingCorners g.system.nullable) (.start hg (#[.ofClosure g.system] ++
          #[.ofClosure g.system, .eliminating g.symbols.nonterminals.length])) []
        g.symbols.nonterminals
      dsimp only [Elimination.run] at herror ⊢
      split at herror
      · rename_i f hf
        rw [hf] at hrun
        exact Progress.Reversible.abort hrun hg
      · rename_i p hp
        rw [hp] at hrun
        have hrun' : ∀ journal, { p with journal }.Reversible g := fun journal =>
          ⟨hrun.tracks.journal journal, hrun.apart⟩
        rcases Elimination.conclude_cases p with ⟨journal, hend⟩ | ⟨journal, cause, -, hend⟩
        · rw [hend] at herror ⊢
          exact reverts_of_commit (hrun' journal) hg herror
        · rw [hend]
          exact Progress.Reversible.abort (f := ⟨{ p with journal }, cause⟩) (hrun' journal) hg

/-- Where a run arrived, whether it failed there or not. -/
def arrival : Except Failure Progress → Progress
  | .ok p => p
  | .error f => f.progress

variable {options} in
theorem reversible_arrival {x : Except Failure Progress}
    (h : Meets (·.Reversible g) (·.progress.Reversible g) x) : (arrival x).Reversible g := by
  cases x with
  | ok p => exact h
  | error f => exact h

/-- **A transformation that fails leaves erased symbols behind and nothing else.** Productions,
start symbol, serial counter and live symbols are those of the grammar, old handles mean what they
meant, handles that were issued on the way are those of erased symbols, and no name of a helper is
taken. -/
theorem reverts_of_error (hg : g.Reachable) :
    (∀ error, (g.eliminateLeftRecursion options).result = .error error →
      Reverts g (g.eliminateLeftRecursion options).grammar ∧
      ∀ journal, let p := arrival (Elimination.treatAll options
          (g.system.vanishingCorners g.system.nullable) [] (.start g journal)
          g.symbols.nonterminals)
        ∀ helper ∈ p.helpers, ∃ name, p.grammar.symbols.name? helper = some name ∧
          (g.eliminateLeftRecursion options).grammar.symbols.isNameTaken name = false) ∧
    ∀ error, (g.leftFactor options).result = .error error →
      Reverts g (g.leftFactor options).grammar ∧
      let p := arrival (Factoring.factorAll options (.start g #[]) g.symbols.nonterminals)
      ∀ helper ∈ p.helpers, ∃ name, p.grammar.symbols.name? helper = some name ∧
        (g.leftFactor options).grammar.symbols.isNameTaken name = false := by
  have hwf := hg.wellFormed
  -- A helper is live where the run arrived, and its name was free in the grammar.
  have hnames : ∀ (after : Grammar) (p : Progress), Reverts g after → p.Reversible g →
      ∀ helper ∈ p.helpers, ∃ name, p.grammar.symbols.name? helper = some name ∧
        after.symbols.isNameTaken name = false := by
    intro after p hafter hp helper hhelper
    have hlive := hp.tracks.contains_iff.mpr (Or.inr hhelper)
    obtain ⟨entry, hentry⟩ := Option.isSome_iff_exists.mp hlive
    have hname : p.grammar.symbols.name? helper = some entry.name := by
      rw [SymbolTable.name?, hentry]
      rfl
    exact ⟨entry.name, hname, (hafter.names _).trans (hp.isNameTaken_eq_false hhelper hname)⟩
  constructor
  · intro error herror
    have hafter := reverts_eliminateLeftRecursion options hwf herror
    exact ⟨hafter, fun journal => hnames _ _ hafter (reversible_arrival
      (Elimination.reversible_treatAll options _ (.start hwf journal) _ _))⟩
  · intro error herror
    have hafter := reverts_leftFactor options hwf herror
    exact ⟨hafter, hnames _ _ hafter (reversible_arrival
      (Factoring.reversible_factorAll options (.start hwf #[]) _))⟩

/-- With room for three productions both transformations of the sample fail, and the name that the
helper had is free again. -/
theorem reverts_of_error_sample :
    let options : Options := { limit := 3 }
    (Grammar.sample.eliminateLeftRecursion options).result =
        .error (.tooManyProductions 3 "S") ∧
      (Grammar.sample.leftFactor options).result = .error (.tooManyProductions 3 "S") ∧
      Reverts Grammar.sample (Grammar.sample.eliminateLeftRecursion options).grammar ∧
      Reverts Grammar.sample (Grammar.sample.leftFactor options).grammar ∧
      (Grammar.sample.leftFactor options).grammar.symbols.isNameTaken "S'" = false := by
  have helimination : (Grammar.sample.eliminateLeftRecursion { limit := 3 }).result =
      .error (.tooManyProductions 3 "S") := by decide +kernel
  have hfactoring : (Grammar.sample.leftFactor { limit := 3 }).result =
      .error (.tooManyProductions 3 "S") :=
    Factoring.leftFactor_of_within (n := 4) (f := (·.result)) (by decide +kernel)
  obtain ⟨heliminate, hfactor⟩ := reverts_of_error { limit := 3 } Grammar.reachable_sample
  have hreverts := (hfactor _ hfactoring).1
  refine ⟨helimination, hfactoring, (heliminate _ helimination).1, hreverts, ?_⟩
  rw [hreverts.names]
  decide +kernel

end Runs

end Transform

end TopDown
