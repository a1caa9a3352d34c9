import TopDown.Proofs.Elimination.Exhaustion
import TopDown.Proofs.Elimination.Layout

/-!
# What each iteration establishes

The elimination takes the nonterminals `N₁ … Nₖ` in creation order, and its corners are those of
the grammar that it started with, whatever becomes of the drafts.

* `afterIterations g options i` is where a run is when it has treated `N₁ … Nᵢ`;
  `afterIterations_succ` is one iteration, `eliminateLeftRecursion_eq_afterIterations` the last.
* `HelpersKept p q`: between `p` and `q` no draft of a helper of `p` was touched.
  `HelpersKept.substitute` and `HelpersKept.turnAround` are the two steps.
* `Iterated g i p` is the loop invariant. `Underway.iterated` reads it off the invariant of the
  run, `meets_afterIterations` says that it holds after each iteration, and
  `iterated_afterIterations` puts the parts together.
-/

namespace TopDown.Transform.Elimination

open Relation

variable {g : Grammar} {options : Options} {corners : SymbolRelation} {p q : Progress}
  {a c h s x : Symbol} {earlier rest : List Symbol} {served : List (Symbol × Symbol)} {i j : Nat}

/-! ## Iterations -/

/-- A run when it has treated the first `i` nonterminals, or where it failed before that. -/
def afterIterations (g : Grammar) (options : Options) (i : Nat) : Except Failure Progress :=
  treatAll options (runCorners g) [] (outset g) (g.symbols.nonterminals.take i)

theorem treatAll_append (front : List Symbol) :
    treatAll options corners earlier p (front ++ rest) =
      treatAll options corners earlier p front >>= fun q =>
        treatAll options corners (earlier ++ front) q rest := by
  induction front generalizing earlier p with
  | nil =>
      rw [List.append_nil]
      rfl
  | cons a front ih =>
      simp only [List.cons_append, treatAll, bind_assoc]
      refine bind_congr fun q => ?_
      rw [ih, List.append_assoc, List.singleton_append]

/-- One iteration treats one nonterminal, given the earlier ones. -/
theorem afterIterations_succ (ha : g.symbols.nonterminals[i]? = some a) :
    afterIterations g options (i + 1) = afterIterations g options i >>=
      treat options (runCorners g) (g.symbols.nonterminals.take i) a := by
  rw [afterIterations, List.take_add_one, ha, Option.toList_some, treatAll_append]
  refine bind_congr fun p => ?_
  exact bind_pure _

/-- The elimination ends where the last iteration arrives. -/
theorem eliminateLeftRecursion_eq_afterIterations (hcycle : cycle? g = none)
    (hhidden : hiddenRecursion? g = none) :
    g.eliminateLeftRecursion options =
      match afterIterations g options g.symbols.nonterminals.length with
      | .error failure => failure.abort
      | .ok p => conclude p := by
  rw [eliminateLeftRecursion_of_clear hcycle hhidden, afterIterations, List.take_length]
  rfl

/-! ## Drafts of helpers -/

/-- Between `p` and `q` helpers may have been issued, but the drafts of those of `p` are the same,
in the same order. -/
structure HelpersKept (p q : Progress) : Prop where
  issued : p.helpers <+: q.helpers
  drafts : ∀ h ∈ p.helpers, q.drafts.filter (·.lhs = h) = p.drafts.filter (·.lhs = h)

/-- Each helper has an empty rule. -/
def HelpersVanish (p : Progress) : Prop := ∀ h ∈ p.helpers, ⟨h, []⟩ ∈ rulesOf p.drafts

theorem HelpersKept.refl (p : Progress) : HelpersKept p p := ⟨List.prefix_rfl, fun _ _ => rfl⟩

section Steps

variable (hq : q.Tracks g) (ha : g.symbols.contains a = true)
include hq ha

theorem ne_of_mem_helpers (hh : h ∈ q.helpers) : h ≠ a := by
  rintro rfl
  exact hq.not_contains_helper hh ha

theorem HelpersKept.substitute (hkept : HelpersKept p q) (journal : Array Event) :
    HelpersKept p { q with drafts := substitute a c q.drafts, changed := true, journal } := by
  refine ⟨hkept.issued, fun h hh => ?_⟩
  have hne := ne_of_mem_helpers hq ha (hkept.issued.subset hh)
  exact (filter_substitute hne).trans (hkept.drafts h hh)

theorem HelpersKept.turnAround (hkept : HelpersKept p q) (journal : Array Event) :
    let issued := q.introduce options a
    HelpersKept p { issued.2 with
      drafts := turnAround a issued.1 (issued.2.name issued.1) q.drafts
      changed := true
      journal } := by
  intro issued
  refine ⟨hkept.issued.trans (List.prefix_append _ _), fun h hh => ?_⟩
  have hmem := hkept.issued.subset hh
  have hnew : h ≠ issued.1 := Progress.ne_introduce (hq.contains_iff.mpr (Or.inr hmem))
  exact (filter_turnAround (ne_of_mem_helpers hq ha hmem) hnew).trans (hkept.drafts h hh)

omit hq ha in
theorem HelpersVanish.substitute (hvanish : HelpersVanish q) (journal : Array Event) :
    HelpersVanish { q with drafts := substitute a c q.drafts, changed := true, journal } := by
  intro h hh
  refine mem_rulesOf_substitute_iff.mpr (Or.inl ⟨hvanish h hh, ?_⟩)
  rintro ⟨-, γ, ⟨⟩⟩

theorem HelpersVanish.turnAround (hvanish : HelpersVanish q) (journal : Array Event) :
    let issued := q.introduce options a
    HelpersVanish { issued.2 with
      drafts := turnAround a issued.1 (issued.2.name issued.1) q.drafts
      changed := true
      journal } := by
  intro issued h hh
  refine mem_rulesOf_turnAround_iff.mpr ?_
  rcases List.mem_append.mp hh with hold | hnew
  · exact Or.inl (Or.inl ⟨hvanish h hold, ne_of_mem_helpers hq ha hold⟩)
  · rw [List.mem_singleton.mp hnew]
    exact Or.inr (Or.inr rfl)

end Steps

variable (options corners) in
/-- The rest of a run leaves the helpers alone that it finds. -/
theorem helpersKept_treatAll (hp : p.Tracks g) (hvanish : HelpersVanish p)
    (hbegins : earlier ++ rest <+: g.symbols.nonterminals) :
    Meets (fun q => q.Tracks g ∧ HelpersVanish q ∧ HelpersKept p q) (fun _ => True)
      (treatAll options corners earlier p rest) := by
  have hlive : ∀ {earlier' later a}, earlier ++ rest = earlier' ++ a :: later →
      g.symbols.contains a = true := by
    intro earlier' later a horder
    refine SymbolTable.contains_of_kind? (SymbolTable.mem_nonterminals_iff.mp ?_)
    exact hbegins.subset (by rw [horder]; simp)
  have hrun : Meets (fun q => q.Tracks g ∧ HelpersVanish q ∧ HelpersKept p q)
      (fun f => f.progress.Tracks g ∧ HelpersVanish f.progress ∧ HelpersKept p f.progress)
      (treatAll options corners earlier p rest) := by
    refine meets_treatAll_of_steps ?_ ?_ rfl ⟨hp, hvanish, .refl p⟩
    · rintro earlier' a later c q horder - ⟨hq, hvanish, hkept⟩ - - journal
      exact ⟨tracks_substitute hq journal, hvanish.substitute journal,
        hkept.substitute hq (hlive horder) journal⟩
    · rintro earlier' a later q horder ⟨hq, hvanish, hkept⟩ - - journal
      exact ⟨tracks_turnAround hq journal, hvanish.turnAround hq (hlive horder) journal,
        hkept.turnAround hq (hlive horder) journal⟩
  exact hrun.mono (fun _ => id) fun _ _ => trivial

theorem helpersVanish_afterIterations (hg : g.WellFormed)
    (hp : afterIterations g options i = .ok p) : p.Tracks g ∧ HelpersVanish p := by
  have hrun : Meets (fun q => q.Tracks g ∧ HelpersVanish q ∧ HelpersKept (outset g) q)
      (fun _ => True) (afterIterations g options i) :=
    helpersKept_treatAll options (runCorners g) (.start hg _)
      (fun _ hh => absurd hh List.not_mem_nil) (List.take_prefix i g.symbols.nonterminals)
  rw [hp] at hrun
  exact ⟨hrun.1, hrun.2.1⟩

/-- **Later iterations leave the drafts of the helpers alone.** -/
theorem helpersKept_of_le (hg : g.WellFormed) (hle : i ≤ j)
    (hp : afterIterations g options i = .ok p) (hq : afterIterations g options j = .ok q) :
    HelpersKept p q := by
  obtain ⟨htracks, hvanish⟩ := helpersVanish_afterIterations hg hp
  obtain ⟨rest, hsplit⟩ := List.take_prefix_take_left (l := g.symbols.nonterminals) hle
  have hbegins : g.symbols.nonterminals.take i ++ rest <+: g.symbols.nonterminals := by
    rw [hsplit]
    exact List.take_prefix j _
  have hrest := helpersKept_treatAll options (runCorners g) htracks hvanish hbegins
  rw [afterIterations] at hp
  rw [afterIterations, ← hsplit, treatAll_append, hp] at hq
  rw [show treatAll options (runCorners g) (g.symbols.nonterminals.take i) p rest = .ok q
    from hq] at hrest
  exact hrest.2.2

/-! ## The invariant of the iterations -/

def nullableNow (p : Progress) : SymbolSet := (p.grammar.draftSystem p.drafts).nullable

/-- What holds after `i` iterations. Corners are those of the grammar at the start, nullable
symbols those of the current drafts. -/
structure Iterated (g : Grammar) (i : Nat) (p : Progress) : Prop where
  /-- A treated nonterminal starts neither with itself nor with an earlier one that leads to it. -/
  ahead : ∀ m l a b, m < i → l ≤ m → g.symbols.nonterminals[m]? = some a →
    g.symbols.nonterminals[l]? = some b → b = a ∨ (runCorners g).holds b a = true →
    ∀ d ∈ p.drafts, d.lhs = a → d.rhs.head? ≠ some b
  nullable : ∀ h ∈ p.helpers, (nullableNow p).contains h = true
  /-- Behind nullable symbols nothing leads back. -/
  exposed : ∀ d ∈ p.drafts, d.lhs ∈ g.symbols.nonterminals → ∀ α x β, d.rhs = α ++ x :: β →
    α ≠ [] → (∀ s ∈ α, (nullableNow p).contains s = true) → g.symbols.contains x = true →
    x ≠ d.lhs ∧ (runCorners g).holds x d.lhs = false

theorem contains_nullableNow_iff (hp : p.Tracks g) :
    (nullableNow p).contains s = true ↔ Vanishes (rulesOf p.drafts) s :=
  RuleSystem.contains_nullable_iff
    (Grammar.isScoped_of_admits (forall_mem_rulesOf_iff.mpr hp.admits))

theorem reflTransGen_of_holds (hg : g.WellFormed)
    (h : x = a ∨ (runCorners g).holds x a = true) :
    ReflTransGen (Corner g.system.rules) x a := by
  rcases h with rfl | hholds
  · exact .refl
  · exact ((holds_runCorners hg x a).mp hholds).to_reflTransGen

theorem index_le_of_getElem? {l m : Nat} {b : Symbol} (hle : l ≤ m)
    (hb : g.symbols.nonterminals[l]? = some b) (ha : g.symbols.nonterminals[m]? = some a) :
    b.index ≤ a.index := by
  obtain ⟨hl, rfl⟩ := List.getElem?_eq_some_iff.mp hb
  obtain ⟨hm, rfl⟩ := List.getElem?_eq_some_iff.mp ha
  rcases Nat.eq_or_lt_of_le hle with rfl | hlt
  · exact Nat.le_refl _
  · exact Nat.le_of_lt (List.pairwise_iff_getElem.mp g.symbols.pairwise_nonterminals l m hl hm hlt)

theorem Underway.iterated (hg : g.WellFormed)
    (hp : Underway g options (g.symbols.nonterminals.take i) served p)
    (hvanish : HelpersVanish p) : Iterated g i p where
  ahead := by
    intro m l a b hm hl ha hb hback d hd hlhs hhead
    obtain ⟨γ, hγ⟩ := List.head?_eq_some_iff.mp hhead
    have hrule : ⟨a, b :: γ⟩ ∈ rulesOf p.drafts := by
      rw [← hlhs, ← hγ]
      exact mem_rulesOf hd
    have hlive := SymbolTable.mem_nonterminals_iff.mp (List.mem_of_getElem? hb)
    have hbase := hp.baseOf_eq_none (SymbolTable.contains_of_kind? hlive)
    -- The run knows treated nonterminals as a set; here they are known by their place.
    have htreated : a ∈ g.symbols.nonterminals.take i := by
      refine List.mem_of_getElem? (i := m) ?_
      rw [List.getElem?_take_of_lt hm, ha]
    have hlt := hp.ordered a htreated b γ hrule hbase (reflTransGen_of_holds hg hback)
    exact Nat.not_le_of_lt hlt (index_le_of_getElem? hl hb ha)
  nullable := by
    intro h hh
    exact (contains_nullableNow_iff hp.tracks).mpr (.of_mem (hvanish h hh) allVanish_nil)
  exposed := by
    intro d hd hlhs α x β hsplit hne hα hx
    have hlive := SymbolTable.mem_nonterminals_iff.mp hlhs
    have hfaithful := hp.sound.original d.toRule (mem_rulesOf hd)
      (hp.baseOf_eq_none (SymbolTable.contains_of_kind? hlive))
    have hfades : ∀ s ∈ α, Fades g.system.rules (baseOf served) s := fun s hs =>
      fades_of_vanishes hp.sound ((contains_nullableNow_iff hp.tracks).mp (hα s hs))
    -- A symbol that vanishes now stood for symbols that did so in the grammar.
    have hnot := hfaithful.exposed α x β hsplit hne hfades (hp.baseOf_eq_none hx)
    refine ⟨fun heq => hnot (reflTransGen_of_holds hg (Or.inl heq)), ?_⟩
    exact Bool.eq_false_iff.mpr fun hholds => hnot (reflTransGen_of_holds hg (Or.inr hholds))

theorem meets_afterIterations (hg : g.WellFormed) (hcycle : cycle? g = none)
    (hhidden : hiddenRecursion? g = none) (options : Options) (i : Nat) :
    Meets (fun p => Iterated g i p ∧
        ∀ j q, i ≤ j → afterIterations g options j = .ok q → HelpersKept p q)
      (fun f => ∃ name, f.error = .tooManyProductions options.limit name)
      (afterIterations g options i) := by
  have hrun : Meets (fun p => ∃ served, Underway g options (g.symbols.nonterminals.take i) served p)
      (fun f => ∃ name, f.error = .tooManyProductions options.limit name)
      (afterIterations g options i) :=
    underway_of_prefix options hg hcycle hhidden _ (List.take_prefix i g.symbols.nonterminals)
  cases hi : afterIterations g options i with
  | error failure =>
      rw [hi] at hrun
      exact hrun
  | ok p =>
      rw [hi] at hrun
      obtain ⟨served, hp⟩ := hrun
      exact ⟨hp.iterated hg (helpersVanish_afterIterations hg hi).2,
        fun j q hle hq => helpersKept_of_le hg hle hi hq⟩

/-- **Each iteration keeps what the earlier ones achieved.** If nothing stands against it, an
elimination treats one nonterminal after another and ends where the last iteration arrives. After
any number of iterations no treated nonterminal has a draft that starts with itself or with an
earlier nonterminal that leads to it by corners of the grammar; behind nullable symbols no symbol
of the grammar leads back, on any draft of a nonterminal of the grammar; and the drafts of the
helpers stay as they are in all iterations to come. Only the limit keeps a run from getting that
far. -/
theorem iterated_afterIterations (hg : g.Reachable) (hcycle : cycle? g = none)
    (hhidden : hiddenRecursion? g = none) (options : Options) :
    (∀ i a, g.symbols.nonterminals[i]? = some a →
      afterIterations g options (i + 1) = afterIterations g options i >>=
        treat options (runCorners g) (g.symbols.nonterminals.take i) a) ∧
    g.eliminateLeftRecursion options =
      (match afterIterations g options g.symbols.nonterminals.length with
      | .error failure => failure.abort
      | .ok p => conclude p) ∧
    ∀ i, Meets (fun p => Iterated g i p ∧
        ∀ j q, i ≤ j → afterIterations g options j = .ok q → HelpersKept p q)
      (fun f => ∃ name, f.error = .tooManyProductions options.limit name)
      (afterIterations g options i) :=
  ⟨fun _ _ => afterIterations_succ, eliminateLeftRecursion_eq_afterIterations hcycle hhidden,
    meets_afterIterations hg.wellFormed hcycle hhidden options⟩

/-- In `A → A x | B`, `B → A y | z` the helper of `A` is there after one iteration, and has the
same two drafts after the other one. -/
theorem iterated_afterIterations_mutual :
    let first : Symbol := ⟨⟨1⟩, 0⟩
    let second : Symbol := ⟨⟨1⟩, 1⟩
    let x : Symbol := ⟨⟨1⟩, 2⟩
    let helper : Symbol := ⟨⟨1⟩, 5⟩
    let g := (Grammar.Edit.applyAll (.empty ⟨1⟩)
      [.addSymbols .nonterminal ["A", "B"], .addSymbols .terminal ["x", "y", "z"],
        .build first [.alternative [first, x], .alternative [second], .rule second,
          .alternative [first, ⟨⟨1⟩, 3⟩], .alternative [⟨⟨1⟩, 4⟩]]]).1
    ∃ p q, afterIterations g {} 1 = .ok p ∧ afterIterations g {} 2 = .ok q ∧
      p.helpers = [helper] ∧ q.helpers = [helper, ⟨⟨1⟩, 6⟩] ∧ Iterated g 1 p ∧ Iterated g 2 q ∧
      q.drafts.filter (·.lhs = helper) = helperDrafts helper "A'" [[x, helper], []] := by
  intro first second x helper g
  have hcycle : cycle? g = none := by decide +kernel
  have hhidden : hiddenRecursion? g = none := by decide +kernel
  have hone : (afterIterations g {} 1).map
      (fun p => (p.helpers, p.drafts.filter (·.lhs = helper))) =
      .ok ([helper], helperDrafts helper "A'" [[x, helper], []]) := by decide +kernel
  have htwo : (afterIterations g {} 2).map (·.helpers) = .ok [helper, ⟨⟨1⟩, 6⟩] := by
    decide +kernel
  obtain ⟨-, -, hall⟩ := iterated_afterIterations
    ((Grammar.Reachable.empty ⟨1⟩).applyAll _ : g.Reachable) hcycle hhidden {}
  have hmeets : ∀ i p, afterIterations g {} i = .ok p → Iterated g i p ∧
      ∀ j q, i ≤ j → afterIterations g {} j = .ok q → HelpersKept p q := by
    intro i p hp
    have hrun := hall i
    rwa [hp] at hrun
  cases hp : afterIterations g {} 1 with
  | error failure =>
      rw [hp] at hone
      cases hone
  | ok p =>
      cases hq : afterIterations g {} 2 with
      | error failure =>
          rw [hq] at htwo
          cases htwo
      | ok q =>
          rw [hp] at hone
          rw [hq] at htwo
          obtain ⟨hhelpers, hdrafts⟩ := Prod.mk.inj (Except.ok.inj hone)
          obtain ⟨hfirst, hlater⟩ := hmeets 1 p hp
          obtain ⟨hsecond, -⟩ := hmeets 2 q hq
          have hkept := (hlater 2 q (by omega) hq).drafts helper (by rw [hhelpers]; simp)
          exact ⟨p, q, rfl, rfl, hhelpers, Except.ok.inj htwo, hfirst, hsecond,
            hkept.trans hdrafts⟩

end TopDown.Transform.Elimination
