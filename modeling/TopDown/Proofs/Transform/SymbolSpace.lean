import TopDown.Proofs.Grammar.RoundTrip
import TopDown.Proofs.Transform.Rollback

/-!
# The symbols after a transformation

A transformation that succeeds issues its helpers and changes nothing else about the symbols.

* `Grammar.Extends g helpers after`: `after` has the symbols of `g` and, at the next indices, the
  helpers under names of their own.
* `Extends.injOn_name?`: where the names differed, they still differ.
* `Reversible.extends_commit`: what a reversible progress commits is such an extension.
* `RoundTrips`: the description of a grammar goes there and back.
* `extends_of_ok`: what the two transformations leave if they succeed is such an extension, and its
  description goes there and back if that of the grammar did.
-/

namespace TopDown

namespace Grammar

/-- `after` has the symbols of `g` and helpers at the indices that follow. -/
structure Extends (g : Grammar) (helpers : List Symbol) (after : Grammar) : Prop where
  id : after.id = g.id
  /-- The helpers have consecutive indices in this order. -/
  issued : helpers = (List.range helpers.length).map fun i => ⟨g.id, g.symbols.size + i⟩
  /-- No other index was used. -/
  size : after.symbols.size = g.symbols.size + helpers.length
  /-- The helpers are live nonterminals. -/
  nonterminal : ∀ h ∈ helpers, after.symbols.kind? h = some .nonterminal
  /-- What was live or erased is so still, with its kind and its name. -/
  earlier : ∀ s, s.index < g.symbols.size → after.symbols.lookup? s = g.symbols.lookup? s
  start : after.start = g.start
  /-- No other live symbol has the name of a helper. -/
  apart : ∀ h ∈ helpers, ∀ s, after.symbols.contains s = true → s ≠ h →
    after.symbols.name? s ≠ after.symbols.name? h

/-- The description of a grammar can be loaded under every identity. What is loaded then has that
description, and is isomorphic to the grammar under the same names. -/
def RoundTrips (g : Grammar) : Prop :=
  ∀ id, ∃ loaded, ofDescription id g.describe = .ok loaded ∧ loaded.describe = g.describe ∧
    ∃ φ, Isomorphic φ g loaded ∧ SameNames φ g loaded

theorem roundTrips_of_injOn {g : Grammar} (hg : g.WellFormed)
    (hinj : Set.InjOn g.symbols.name? {s | g.symbols.contains s = true}) : RoundTrips g := by
  intro id
  obtain ⟨loaded, hloaded⟩ :=
    Description.exists_ofDescription_iff.mpr ((wellNamed_describe_iff hg).mpr hinj)
  have hload := Description.loads_of_ofDescription hloaded
  exact ⟨loaded, hloaded, Description.describe_of_ofDescription hloaded, _,
    isomorphic_loads hload hg, sameNames_loads hload⟩

namespace Extends

variable {g after : Grammar} {helpers : List Symbol} {s : Symbol}

/-- A symbol that is live now was so before, or it is a helper. -/
theorem contains_or_mem (h : Extends g helpers after) (hs : after.symbols.contains s = true) :
    g.symbols.contains s = true ∨ s ∈ helpers := by
  obtain ⟨howner, hindex⟩ := SymbolTable.lt_of_contains hs
  by_cases hlt : s.index < g.symbols.size
  · left
    rw [SymbolTable.contains, ← h.earlier s hlt]
    exact hs
  · right
    rw [h.issued]
    refine List.mem_map.mpr ⟨s.index - g.symbols.size, List.mem_range.mpr ?_, ?_⟩
    · have hsize := h.size
      omega
    · have howner' : s.owner = g.id := howner.trans h.id
      rw [← howner', Nat.add_sub_cancel' (Nat.le_of_not_lt hlt)]

/-- Names that differed still differ. -/
theorem injOn_name? (h : Extends g helpers after)
    (hinj : Set.InjOn g.symbols.name? {s | g.symbols.contains s = true}) :
    Set.InjOn after.symbols.name? {s | after.symbols.contains s = true} := by
  intro s hs t ht heq
  have hname : ∀ u, g.symbols.contains u = true → after.symbols.name? u = g.symbols.name? u :=
    fun u hu => congrArg (Option.map _) (h.earlier u (SymbolTable.lt_of_contains hu).2)
  by_contra hne
  rcases h.contains_or_mem hs with hs' | hs'
  · rcases h.contains_or_mem ht with ht' | ht'
    · rw [hname s hs', hname t ht'] at heq
      exact hne (hinj hs' ht' heq)
    · exact h.apart t ht' s hs hne heq
  · exact h.apart s hs' t ht (Ne.symm hne) heq.symm

theorem roundTrips (h : Extends g helpers after) (hafter : after.WellFormed)
    (hinj : Set.InjOn g.symbols.name? {s | g.symbols.contains s = true}) :
    Set.InjOn after.symbols.name? {s | after.symbols.contains s = true} ∧ RoundTrips after :=
  ⟨h.injOn_name? hinj, roundTrips_of_injOn hafter (h.injOn_name? hinj)⟩

end Extends

end Grammar

namespace Transform

open Grammar

variable {g : Grammar} {p : Progress} {options : Options} {helpers : List Symbol}

/-- What a reversible progress commits extends the grammar by its helpers. -/
theorem Progress.Reversible.extends_commit (h : p.Reversible g) (hg : g.WellFormed) :
    Extends g p.helpers p.commit.grammar := by
  obtain ⟨-, -, hsymbols, hstart⟩ := h.tracks.commit_eq hg
  refine
    { id := ?_, issued := h.tracks.helpers_eq, size := ?_, nonterminal := ?_, earlier := ?_
      start := hstart, apart := ?_ }
  · show p.commit.grammar.symbols.id = g.id
    rw [hsymbols]
    exact h.tracks.id_eq
  · rw [hsymbols, h.tracks.size_eq]
  · rw [hsymbols]
    exact fun s hs => h.tracks.kind?_helper hs
  · rw [hsymbols]
    exact fun s hs => h.tracks.lookup?_of_lt hs
  · rw [hsymbols]
    exact fun s hs t _ hne heq => hne (h.apart s hs t heq)

/-! ## The two transformations -/

theorem Elimination.exists_reversible_of_ok (hg : g.WellFormed)
    (hok : (g.eliminateLeftRecursion options).result = .ok helpers) :
    ∃ p : Progress, p.Reversible g ∧ p.helpers = helpers ∧
      g.eliminateLeftRecursion options = p.commit := by
  obtain ⟨journal, p, hp, journal', heq⟩ := exists_of_result_eq_ok hok
  have hrun := reversible_treatAll options (g.system.vanishingCorners g.system.nullable)
    (.start hg journal) [] g.symbols.nonterminals
  rw [hp] at hrun
  have htracks := hrun.tracks.journal journal'
  refine ⟨{ p with journal := journal' }, ⟨htracks, hrun.apart⟩, ?_, heq⟩
  rw [heq, (htracks.commit_eq hg).1] at hok
  exact Except.ok.inj hok

theorem Factoring.exists_reversible_of_ok (hg : g.WellFormed)
    (hok : (g.leftFactor options).result = .ok helpers) :
    ∃ p : Progress, p.Reversible g ∧ p.helpers = helpers ∧ g.leftFactor options = p.commit := by
  obtain ⟨p, hp, -, hhelpers, heq⟩ := exists_tracks_of_ok hg hok
  have hrun := reversible_factorAll options (.start hg #[]) g.symbols.nonterminals
  rw [hp] at hrun
  exact ⟨p, hrun, hhelpers, heq⟩

/-- **A transformation that succeeds extends the symbols by its helpers.** They have the next
indices in the order in which they are returned, and names that no other live symbol has; the
symbols of the grammar and its start symbol stay what they were. So if the names of the live
symbols differed, they still do, and the description of the grammar goes there and back. -/
theorem extends_of_ok (hg : g.Reachable) (options : Options) :
    (∀ helpers, (g.eliminateLeftRecursion options).result = .ok helpers →
      let after := (g.eliminateLeftRecursion options).grammar
      Extends g helpers after ∧
        (Set.InjOn g.symbols.name? {s | g.symbols.contains s = true} →
          Set.InjOn after.symbols.name? {s | after.symbols.contains s = true} ∧
            RoundTrips after)) ∧
    ∀ helpers, (g.leftFactor options).result = .ok helpers →
      let after := (g.leftFactor options).grammar
      Extends g helpers after ∧
        (Set.InjOn g.symbols.name? {s | g.symbols.contains s = true} →
          Set.InjOn after.symbols.name? {s | after.symbols.contains s = true} ∧
            RoundTrips after) := by
  have hwf := hg.wellFormed
  constructor
  · intro helpers hok
    have hafter := (hg.eliminated options).wellFormed
    obtain ⟨p, hp, rfl, heq⟩ := Elimination.exists_reversible_of_ok hwf hok
    have hextends := hp.extends_commit hwf
    rw [← heq] at hextends
    exact ⟨hextends, hextends.roundTrips hafter⟩
  · intro helpers hok
    have hafter := (hg.factored options).wellFormed
    obtain ⟨p, hp, rfl, heq⟩ := Factoring.exists_reversible_of_ok hwf hok
    have hextends := hp.extends_commit hwf
    rw [← heq] at hextends
    exact ⟨hextends, hextends.roundTrips hafter⟩

/-- With an empty suffix the name of the nonterminal itself is tried first, which is taken. -/
theorem extends_of_ok_sample :
    let options : Options := { suffix := "" }
    let eliminated := (Grammar.sample.eliminateLeftRecursion options).grammar
    let factored := (Grammar.sample.leftFactor options).grammar
    Extends Grammar.sample [⟨⟨1⟩, 3⟩] eliminated ∧ Extends Grammar.sample [⟨⟨1⟩, 3⟩] factored ∧
      eliminated.symbols.name? ⟨⟨1⟩, 3⟩ = some "S2" ∧ factored.symbols.name? ⟨⟨1⟩, 3⟩ = some "S2" ∧
      RoundTrips factored := by
  have helimination : (Grammar.sample.eliminateLeftRecursion { suffix := "" }).result =
      .ok [⟨⟨1⟩, 3⟩] := by decide +kernel
  have hfactoring : (Grammar.sample.leftFactor { suffix := "" }).result = .ok [⟨⟨1⟩, 3⟩] :=
    Factoring.leftFactor_of_within (n := 4) (f := (·.result)) (by decide +kernel)
  have hname : (Grammar.sample.leftFactor { suffix := "" }).grammar.symbols.name? ⟨⟨1⟩, 3⟩ =
      some "S2" :=
    Factoring.leftFactor_of_within (n := 4) (f := (·.grammar.symbols.name? ⟨⟨1⟩, 3⟩))
      (by decide +kernel)
  obtain ⟨heliminated, hfactored⟩ := extends_of_ok Grammar.reachable_sample { suffix := "" }
  obtain ⟨hextends, hloads⟩ := hfactored _ hfactoring
  have hinj := (wellNamed_describe_iff Grammar.reachable_sample.wellFormed).mp
    ⟨by decide, by decide, by decide⟩
  exact ⟨(heliminated _ helimination).1, hextends, by decide +kernel, hname, (hloads hinj).2⟩

end Transform

end TopDown
