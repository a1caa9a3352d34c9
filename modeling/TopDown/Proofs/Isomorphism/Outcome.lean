import TopDown.Proofs.Elimination.Outcome
import TopDown.Proofs.Isomorphism.Isomorphic

/-!
# Transformations of isomorphic grammars

A transformation looks at the structure of a grammar alone. On isomorphic grammars it comes to the
same outcome, whatever the symbols are called and whichever handles stand for them.

* `SameOutcome`: both outcomes are failures with one cause, or both succeed with isomorphic
  grammars, where helpers go with helpers and kept productions with kept productions. If the names
  were the same before, they are so afterwards, and failures are reported in the same words.
* `sameOutcome_commit`: transformations that are abreast end alike.
* `sameOutcome_eliminateLeftRecursion`, `sameOutcome_leftFactor`: the two transformations.
-/

namespace TopDown

namespace Grammar

variable {φ : Symbol → Symbol} {g h : Grammar} {s s' : Symbol}

/-- The symbol that goes with a live symbol, or with one that is going to be issued. -/
def extend (φ : Symbol → Symbol) (g h : Grammar) (s : Symbol) : Symbol :=
  if g.symbols.contains s then φ s else ⟨h.id, h.symbols.size + (s.index - g.symbols.size)⟩

theorem extend_of_live (hs : g.symbols.contains s = true) : extend φ g h s = φ s := if_pos hs

theorem Pairs.eq_extend (hss : Pairs φ g h s s') : s' = extend φ g h s := by
  rcases hss with ⟨hs, rfl⟩ | ⟨k, rfl, rfl⟩
  · exact (extend_of_live hs).symm
  · rw [extend, if_neg (g.not_contains_next k), Nat.add_sub_cancel_left]

theorem eq_rename_extend {r r' : Rule} (hr : Rule.Match (Pairs φ g h) r r') :
    r' = r.rename (extend φ g h) := by
  obtain ⟨lhs, rhs⟩ := r'
  obtain ⟨hlhs, hrhs⟩ := hr
  rw [Rule.rename, ← hlhs.eq_extend, ← eq_map_of_forall₂ hrhs fun _ _ => Pairs.eq_extend]

/-- The productions are kept at the same position, or both are new. -/
def SameKeeping (g h : Grammar) (q q' : Production) : Prop :=
  g.SamePosition h q.id q'.id ∨ (q.id ∉ g.ids ∧ q'.id ∉ h.ids)

/-- Matching drafts are numbered alike. -/
theorem sameKeeping_numbered {R : Symbol → Symbol → Prop} {named : Prop} {owner owner' : Identity}
    {m n : Nat} {drafts drafts' : List Draft} (hm : ∀ i ∈ g.ids, i.serial < m)
    (hn : ∀ i ∈ h.ids, i.serial < n)
    (hdrafts : List.Forall₂ (Draft.Match R (g.SamePosition h) named) drafts drafts') :
    List.Forall₂ (SameKeeping g h) (numbered owner m drafts) (numbered owner' n drafts') := by
  induction hdrafts generalizing m n with
  | nil => exact .nil
  | @cons d d' drafts drafts' hd _ ih =>
      have horigin := hd.origin
      cases hi : d.origin with
      | none =>
          rw [hi] at horigin
          have hi' := eq_none_of_rel_none horigin
          simp only [numbered, hi, hi']
          refine .cons (Or.inr ⟨fun hmem => ?_, fun hmem => ?_⟩) (ih ?_ ?_)
          · exact Nat.lt_irrefl _ (hm _ hmem)
          · exact Nat.lt_irrefl _ (hn _ hmem)
          · exact fun i hmem => Nat.lt_succ_of_lt (hm i hmem)
          · exact fun i hmem => Nat.lt_succ_of_lt (hn i hmem)
      | some i =>
          rw [hi] at horigin
          obtain ⟨i', hi', hsame⟩ := exists_of_rel_some horigin
          simp only [numbered, hi, hi']
          exact .cons (Or.inl hsame) (ih hm hn)

end Grammar

namespace Transform

open Grammar

variable {φ : Symbol → Symbol} {g h : Grammar} {named : Prop} {s s' : Symbol}

/-- Two outcomes are the same but for symbols, IDs and, unless `named` holds, names. -/
def SameOutcome (named : Prop) (φ : Symbol → Symbol) (g h : Grammar) (o o' : Outcome) : Prop :=
  match o.result, o'.result with
  | .ok helpers, .ok helpers' =>
    ∃ ψ, (∀ s, g.symbols.contains s = true → ψ s = φ s) ∧ helpers' = helpers.map ψ ∧
      Isomorphic ψ o.grammar o'.grammar ∧
      List.Forall₂ (SameKeeping g h) o.grammar.productions o'.grammar.productions ∧
      (named → SameNames ψ o.grammar o'.grammar ∧
        helpers'.map o'.grammar.displayName = helpers.map o.grammar.displayName)
  | .error error, .error error' => error.Match named error'
  | _, _ => False

/-! ## At the end -/

namespace Abreast

variable {p p' : Progress}

variable (hiso : Isomorphic φ g h) (hg : g.WellFormed)
  (hp : Abreast (Pairs φ g h) (g.SamePosition h) named g h p p')
include hiso hp

theorem kind?_extend (hs : p.grammar.symbols.contains s = true) :
    p'.grammar.symbols.kind? (extend φ g h s) = p.grammar.symbols.kind? s := by
  rcases hp.tracks.contains_iff.mp hs with hlive | hhelper
  · rw [extend_of_live hlive, hp.tracks'.kind?_of_contains (hiso.contains_image hlive),
      hp.tracks.kind?_of_contains hlive, hiso.kind s hlive]
  · obtain ⟨s', hs', hss⟩ := exists_of_forall₂ hp.helpers hhelper
    rw [← hss.eq_extend, hp.tracks'.kind?_helper hs', hp.tracks.kind?_helper hhelper]

include hg

theorem pairs_extend (hs : p.grammar.symbols.contains s = true) :
    Pairs φ g h s (extend φ g h s) := by
  obtain ⟨s', hss⟩ := hp.exists_right (hiso.coupled hg) hs
  rwa [← hss.eq_extend]

/-- The live symbols go together one to one, helpers included. -/
theorem bijOn_extend : Set.BijOn (extend φ g h) {s | p.grammar.symbols.contains s = true}
    {s | p'.grammar.symbols.contains s = true} := by
  have hc := hiso.coupled hg
  refine ⟨fun s hs => ?_, fun s hs t ht heq => ?_, fun s' hs' => ?_⟩
  · exact (hp.live hc (hp.pairs_extend hiso hg hs)).mp hs
  · exact hc.renames.unique.1 (hp.pairs_extend hiso hg hs) (heq ▸ hp.pairs_extend hiso hg ht)
  · obtain ⟨s, hss⟩ := hp.exists_left hc hs'
    exact ⟨s, (hp.live hc hss).mpr hs', hss.eq_extend.symm⟩

/-- Helpers come after all others, and in the same order on both sides. -/
theorem index_extend_lt_iff {t : Symbol} (hs : p.grammar.symbols.kind? s = some .nonterminal)
    (ht : p.grammar.symbols.kind? t = some .nonterminal) :
    s.index < t.index ↔ (extend φ g h s).index < (extend φ g h t).index := by
  have hold : ∀ {t : Symbol}, g.symbols.contains t = true →
      t.index < g.symbols.size ∧ (φ t).index < h.symbols.size := fun ht =>
    ⟨(SymbolTable.lt_of_contains ht).2, (SymbolTable.lt_of_contains (hiso.contains_image ht)).2⟩
  have hpairs := fun {t : Symbol} (ht : p.grammar.symbols.kind? t = some .nonterminal) =>
    hp.pairs_extend hiso hg (SymbolTable.contains_of_kind? ht)
  rcases hpairs hs with ⟨hslive, hs'⟩ | ⟨k, rfl, hs'⟩ <;>
    rcases hpairs ht with ⟨htlive, ht'⟩ | ⟨m, rfl, ht'⟩ <;> rw [hs', ht']
  · rw [hp.tracks.kind?_of_contains hslive] at hs
    rw [hp.tracks.kind?_of_contains htlive] at ht
    exact hiso.order s t hs ht
  · have hlt := hold hslive
    exact iff_of_true (Nat.lt_add_right m hlt.1) (Nat.lt_add_right m hlt.2)
  · have hlt := hold htlive
    exact iff_of_false (Nat.not_lt_of_le (Nat.le_add_right_of_le hlt.1.le))
      (Nat.not_lt_of_le (Nat.le_add_right_of_le hlt.2.le))
  · simp only [Nat.add_lt_add_iff_left]

theorem isomorphic_commit (hh : h.WellFormed) :
    Isomorphic (extend φ g h) p.commit.grammar p'.commit.grammar := by
  obtain ⟨-, hrules, hsymbols, -⟩ := hp.tracks.commit_eq hg
  obtain ⟨-, hrules', hsymbols', -⟩ := hp.tracks'.commit_eq hh
  refine ⟨?_, ?_, ?_, ?_⟩
  · rw [hsymbols, hsymbols']
    exact hp.bijOn_extend hiso hg
  · rw [hsymbols, hsymbols']
    exact fun s => hp.kind?_extend hiso
  · rw [hsymbols]
    exact fun s t => hp.index_extend_lt_iff hiso hg
  · rw [hrules, hrules']
    exact eq_map_of_forall₂ (rulesOf_match hp.drafts) fun _ _ => eq_rename_extend

/-- Where the names were the same, they are so at the end. -/
theorem sameNames_commit (hh : h.WellFormed) (hn : named) :
    SameNames (extend φ g h) p.commit.grammar p'.commit.grammar := by
  obtain ⟨-, -, hsymbols, -⟩ := hp.tracks.commit_eq hg
  obtain ⟨-, -, hsymbols', -⟩ := hp.tracks'.commit_eq hh
  refine ⟨fun s hs => ?_, ?_⟩
  · rw [hsymbols] at hs
    rw [hsymbols, hsymbols', ← hp.names hn s _ (hp.pairs_extend hiso hg hs)]
  · rw [hp.tracks.productions_commit hg, hp.tracks'.productions_commit hh, map_label_numbered,
      map_label_numbered]
    exact (map_eq_map_of_forall₂ hp.drafts fun _ _ hd => hd.label hn).symm

/-- **Transformations that are abreast end alike.** -/
theorem sameOutcome_commit (hh : h.WellFormed) :
    SameOutcome named φ g h p.commit p'.commit := by
  have hhelpers : p'.helpers = p.helpers.map (extend φ g h) :=
    eq_map_of_forall₂ hp.helpers fun _ _ => Pairs.eq_extend
  rw [SameOutcome, (hp.tracks.commit_eq hg).1, (hp.tracks'.commit_eq hh).1]
  refine ⟨extend φ g h, fun s => extend_of_live, hhelpers, hp.isomorphic_commit hiso hg hh, ?_,
    fun hn => ?_⟩
  · rw [hp.tracks.productions_commit hg, hp.tracks'.productions_commit hh]
    exact sameKeeping_numbered (fun i hi => (hg.of_mem_ids hi).2)
      (fun i hi => (hh.of_mem_ids hi).2) hp.drafts
  · have hnames := hp.sameNames_commit hiso hg hh hn
    refine ⟨hnames, ?_⟩
    rw [hhelpers, List.map_map]
    refine List.map_congr_left fun s hs => hnames.displayName_eq ?_
    rw [(hp.tracks.commit_eq hg).2.2.1]
    exact hp.tracks.contains_iff.mpr (Or.inr hs)

end Abreast

/-- The outcome of a run that is concluded in some way unless it fails. -/
def ending (conclusion : Progress → Outcome) : Except Failure Progress → Outcome
  | .error failure => failure.abort
  | .ok p => conclusion p

/-- Runs that are paired end alike if their conclusions do. -/
theorem Paired.sameOutcome {I : Progress → Progress → Prop} {x x' : Except Failure Progress}
    {f f' : Progress → Outcome} (hx : Paired I named x x')
    (hf : ∀ p p', x = .ok p → x' = .ok p' → I p p' → SameOutcome named φ g h (f p) (f' p')) :
    SameOutcome named φ g h (ending f x) (ending f' x') := by
  cases x with
  | error failure =>
      cases x' with
      | error failure' => exact hx
      | ok p' => exact hx.elim
  | ok p =>
      cases x' with
      | error failure' => exact hx.elim
      | ok p' => exact hf p p' rfl rfl hx

/-! ## What stands against an elimination -/

section Checks

/-- Cyclic symbols are nonterminals. -/
theorem kind?_of_mem_cyclic (hg : g.WellFormed) (hs : s ∈ g.system.cycles.cyclic) :
    g.symbols.kind? s = some .nonterminal := by
  obtain ⟨r, hr, rfl, -⟩ := DerivesPlus.first_rule ((RuleSystem.mem_cyclic_iff hg.isScoped).mp hs)
  obtain ⟨q, hq, rfl⟩ := List.mem_map.mp hr
  exact (hg.admits q hq).1

variable (hiso : Isomorphic φ g h) (hg : g.WellFormed) (hh : h.WellFormed)
include hiso hg hh

theorem cyclic_eq : h.system.cycles.cyclic = g.system.cycles.cyclic.map φ := by
  have hrenames := (hiso.coupled hg).renames
  refine hiso.eq_map_of_pairwise SymbolRelation.pairwise_diagonal SymbolRelation.pairwise_diagonal
    (fun s hs => SymbolTable.mem_nonterminals_iff.mpr (kind?_of_mem_cyclic hg hs)) fun s' => ?_
  rw [RuleSystem.mem_cyclic_iff hh.isScoped]
  constructor
  · intro hs'
    have hkind := kind?_of_mem_cyclic hh ((RuleSystem.mem_cyclic_iff hh.isScoped).mpr hs')
    obtain ⟨s, hs, rfl⟩ := hiso.live.surjOn (SymbolTable.contains_of_kind? hkind)
    rw [← hrenames.cyclic_iff (.of_live hs), ← RuleSystem.mem_cyclic_iff hg.isScoped] at hs'
    exact ⟨s, hs', rfl⟩
  · rintro ⟨s, hs, rfl⟩
    have hlive := SymbolTable.contains_of_kind? (kind?_of_mem_cyclic hg hs)
    exact (hrenames.cyclic_iff (.of_live hlive)).mp ((RuleSystem.mem_cyclic_iff hg.isScoped).mp hs)

/-- The first cyclic nonterminals go together. -/
theorem rel_cycle? (hnames : named → SameNames φ g h) :
    Option.Rel (Error.Match named) (Elimination.cycle? g) (Elimination.cycle? h) := by
  rw [Elimination.cycle?, Elimination.cycle?, cyclic_eq hiso hg hh]
  cases hcyclic : g.system.cycles.cyclic with
  | nil => exact .none
  | cons s rest =>
      have hkind := kind?_of_mem_cyclic hg (hcyclic ▸ List.mem_cons_self)
      refine .some ⟨.cycle _ _, fun hn => congrArg Error.cycle ?_⟩
      exact ((hnames hn).displayName_eq (SymbolTable.contains_of_kind? hkind)).symm

/-- The first productions that hide left recursion stand at the same position. -/
theorem rel_hiddenRecursion? (hnames : named → SameNames φ g h) :
    Option.Rel (Error.Match named) (Elimination.hiddenRecursion? g)
      (Elimination.hiddenRecursion? h) := by
  have hdrafts := hiso.match_drafts hg hnames
  rw [drafts, drafts, List.forall₂_map_left_iff, List.forall₂_map_right_iff] at hdrafts
  refine rel_option_map
    (rel_find? ((List.forall₂_and_left _ _).mpr ⟨hg.admits, hdrafts⟩) fun q q' hq => ?_)
    fun q q' hq => ?_
  · rw [Bool.eq_iff_iff, RuleSystem.isSome_hiddenCorner?_iff hg.isScoped,
      RuleSystem.isSome_hiddenCorner?_iff hh.isScoped]
    exact (hiso.coupled hg).renames.hides_iff hq.2.rule
  · refine ⟨.hiddenLeftRecursion _ _ _ _, fun hn => ?_⟩
    have hlive := SymbolTable.contains_of_kind? hq.1.1
    have hlhs : q'.lhs = φ q.lhs := hq.2.rule.1.eq_of_live hlive
    have hlabel : q.label = q'.label := hq.2.label hn
    rw [hlhs, (hnames hn).displayName_eq hlive, hlabel]

end Checks

/-! ## The transformations -/

variable {options options' : Options} (hiso : Isomorphic φ g h) (hg : g.WellFormed)
  (hh : h.WellFormed) (hlimit : options.limit = options'.limit)
  (hsame : named → SameNames φ g h ∧ options.suffix = options'.suffix)
include hiso hg hh hlimit hsame

/-- **Isomorphic grammars are left-factored alike.** -/
theorem sameOutcome_leftFactor :
    SameOutcome named φ g h (g.leftFactor options) (h.leftFactor options') := by
  have hc := hiso.coupled hg
  have hrun := Factoring.paired_factorAll hc hlimit (fun hn => (hsame hn).2)
    (hiso.start hg hh (fun hn => (hsame hn).1) #[] #[]) hc.nonterminals
  exact hrun.sameOutcome fun p p' _ _ hp => hp.sameOutcome_commit hiso hg hh

theorem sameOutcome_run (hcycle : Elimination.cycle? g = none)
    (hhidden : Elimination.hiddenRecursion? g = none) (hcycle' : Elimination.cycle? h = none)
    (hhidden' : Elimination.hiddenRecursion? h = none) (journal journal' : Array Event) :
    SameOutcome named φ g h (Elimination.run g options journal)
      (Elimination.run h options' journal') := by
  have hc := hiso.coupled hg
  have hcorners : ∀ s s' t t', Pairs φ g h s s' → Pairs φ g h t t' →
      (g.system.vanishingCorners g.system.nullable).holds s t =
        (h.system.vanishingCorners h.system.nullable).holds s' t' := by
    intro s s' t t' hs ht
    rw [Bool.eq_iff_iff, RuleSystem.holds_vanishingCorners_iff hg.isScoped,
      RuleSystem.holds_vanishingCorners_iff hh.isScoped]
    exact hc.renames.transGen_corner_iff hs ht
  have hrun := Elimination.paired_treatAll hc hlimit (fun hn => (hsame hn).2)
    (hiso.start hg hh (fun hn => (hsame hn).1)
      (journal ++ #[.ofClosure g.system, .eliminating g.symbols.nonterminals.length])
      (journal' ++ #[.ofClosure h.system, .eliminating h.symbols.nonterminals.length]))
    .nil hc.nonterminals hcorners
  refine hrun.sameOutcome fun p p' hok hok' hp => ?_
  obtain ⟨-, after, -, heq⟩ := Elimination.conclude_of_clear hg hcycle hhidden hok
  obtain ⟨-, after', -, heq'⟩ := Elimination.conclude_of_clear hh hcycle' hhidden' hok'
  rw [heq, heq']
  exact (hp.journal after after').sameOutcome_commit hiso hg hh

/-- **The left recursion of isomorphic grammars is eliminated alike.** -/
theorem sameOutcome_eliminateLeftRecursion :
    SameOutcome named φ g h (g.eliminateLeftRecursion options)
      (h.eliminateLeftRecursion options') := by
  have hcycle := rel_cycle? hiso hg hh fun hn => (hsame hn).1
  have hhidden := rel_hiddenRecursion? hiso hg hh fun hn => (hsame hn).1
  unfold Grammar.eliminateLeftRecursion
  cases hcycle₁ : Elimination.cycle? g with
  | some error =>
      rw [hcycle₁] at hcycle
      obtain ⟨error', hcycle₂, herror⟩ := exists_of_rel_some hcycle
      rw [hcycle₂]
      exact herror
  | none =>
      rw [hcycle₁] at hcycle
      have hcycle₂ := eq_none_of_rel_none hcycle
      rw [hcycle₂]
      cases hhidden₁ : Elimination.hiddenRecursion? g with
      | some error =>
          rw [hhidden₁] at hhidden
          obtain ⟨error', hhidden₂, herror⟩ := exists_of_rel_some hhidden
          rw [hhidden₂]
          exact herror
      | none =>
          rw [hhidden₁] at hhidden
          have hhidden₂ := eq_none_of_rel_none hhidden
          rw [hhidden₂]
          exact sameOutcome_run hiso hg hh hlimit hsame hcycle₁ hhidden₁ hcycle₂ hhidden₂ _ _

end Transform

end TopDown
