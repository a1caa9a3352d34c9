import TopDown.Grammar.Text
import TopDown.Proofs.Grammar.Loading
import TopDown.Proofs.Isomorphism.Outcome
import TopDown.Proofs.Transform.Rollback

/-!
# Copies of a grammar

A clone, a grammar loaded from the description of another, and a grammar on which a transformation
failed are isomorphic to the grammar they come from, under the same names. So transformations of
them come out the same for whoever reads names only.

* `isomorphic_clone`, `isomorphic_loads`, `isomorphic_reverts` are the three isomorphisms, and
  `Copy` is what they have in common.
* `Outcome.rendering` is an outcome as it is shown: the text of the grammar, the labels, and the
  names of the helpers or the message of the failure.
* `outcomes_of_isomorphic`: the transformations depend on the structure of a grammar alone.
-/

namespace TopDown

open Transform

namespace Grammar

variable {φ : Symbol → Symbol} {g h : Grammar} {s : Symbol} {r : Rule}

/-! ## Text -/

section Text

variable (hnames : SameNames φ g h)
include hnames

theorem rhsText_map {rhs : List Symbol} (hrhs : ∀ s ∈ rhs, g.symbols.contains s = true) :
    h.rhsText (rhs.map φ) = g.rhsText rhs := by
  cases rhs with
  | nil => rfl
  | cons s rhs =>
      show String.join (((s :: rhs).map φ).map fun t => " " ++ h.displayName t) =
        String.join ((s :: rhs).map fun t => " " ++ g.displayName t)
      rw [List.map_map]
      refine congrArg String.join (List.map_congr_left fun t ht => ?_)
      exact congrArg (" " ++ ·) (hnames.displayName_eq (hrhs t ht))

theorem ruleText_rename (hr : g.Admits r) : h.ruleText (r.rename φ) = g.ruleText r := by
  rw [ruleText, ruleText, Rule.rename, rhsText_map hnames hr.2,
    hnames.displayName_eq (SymbolTable.contains_of_kind? hr.1)]

/-- Isomorphic grammars with the same names have the same text. -/
theorem text_eq (hiso : Isomorphic φ g h) (hg : g.WellFormed) : h.text = g.text := by
  show String.join (h.system.rules.map _) = String.join (g.system.rules.map _)
  rw [hiso.rules, List.map_map]
  refine congrArg String.join (List.map_congr_left fun r hr => ?_)
  obtain ⟨q, hq, rfl⟩ := List.mem_map.mp hr
  exact congrArg (· ++ "\n") (ruleText_rename hnames (hg.admits q hq))

end Text

/-! ## Clones -/

theorem isomorphic_clone (g : Grammar) (id : Identity) :
    Isomorphic (·.rebind id) g (g.clone id) where
  live := by
    refine ⟨fun s hs => ?_, fun s hs t ht heq => ?_, fun s' hs' => ?_⟩
    · obtain ⟨kind, hkind⟩ := SymbolTable.contains_iff_kind?.mp hs
      exact SymbolTable.contains_of_kind? ((WellFormed.kind?_clone hs).trans hkind)
    · have howner := (SymbolTable.lt_of_contains hs).1.trans (SymbolTable.lt_of_contains ht).1.symm
      have hrebind : s.rebind id = t.rebind id := heq
      have hindex : s.index = t.index := congrArg (·.index) hrebind
      exact congrArg₂ Symbol.mk howner hindex
    · have howner : s'.owner = id := (SymbolTable.lt_of_contains hs').1
      refine ⟨s'.rebind g.id, ?_, congrArg₂ Symbol.mk howner.symm rfl⟩
      have hlookup : (g.clone id).symbols.lookup? s' = g.symbols.lookup? (s'.rebind g.id) :=
        (if_pos howner).trans (if_pos rfl).symm
      rw [Set.mem_ofPred_eq, SymbolTable.contains, hlookup] at hs'
      exact hs'
  kind := fun _ => WellFormed.kind?_clone
  order := fun _ _ _ _ => Iff.rfl
  rules := by
    simp only [system, clone, List.map_map]
    rfl

theorem sameNames_clone (g : Grammar) (id : Identity) :
    SameNames (·.rebind id) g (g.clone id) where
  names := fun _ hs => congrArg (Option.map _) (WellFormed.lookup?_clone hs)
  labels := by
    rw [clone, List.map_map]
    rfl

/-! ## Reloads -/

section Reload

variable {id : Identity} {q q' : Production}

/-- A production that the clause of another tells of has the same rule at other places. -/
theorem toRule_eq_of_tells (hdistinct : g.describe.names.Nodup) (hq : g.Admits q.toRule)
    (htells : Description.Clause.Tells (g.describe.table id)
      ⟨q.label, g.displayName q.lhs, q.rhs.map g.displayName⟩ q') :
    q'.toRule = q.toRule.rename (g.place id) := by
  have hplace : ∀ {s s'}, g.symbols.contains s = true →
      (g.describe.table id).find? (g.displayName s) = some s' → s' = g.place id s := by
    intro s s' hs hs'
    rw [find?_table_displayName hdistinct hs] at hs'
    exact (Option.some.inj hs').symm
  have hrhs := htells.rhs
  rw [List.forall₂_map_left_iff] at hrhs
  have hall := (List.forall₂_and_left _ _).mpr ⟨hq.2, hrhs⟩
  exact congrArg₂ Rule.mk (hplace (SymbolTable.contains_of_kind? hq.1) htells.lhs)
    (eq_map_of_forall₂ hall fun _ _ hs => hplace hs.1 hs.2)

variable (hload : g.describe.Loads id h)
include hload

theorem lookup?_loads (hs : g.symbols.contains s = true) :
    h.symbols.lookup? (g.place id s) = g.symbols.lookup? s := by
  rw [hload.symbols, lookup?_place hs]

theorem isomorphic_loads (hg : g.WellFormed) : Isomorphic (g.place id) g h where
  live := by
    refine ⟨fun s hs => ?_, place_injOn, fun s' hs' => ?_⟩
    · rw [Set.mem_ofPred_eq, SymbolTable.contains, lookup?_loads hload hs]
      exact hs
    · rw [Set.mem_ofPred_eq, hload.symbols] at hs'
      exact exists_place hs'
  kind := fun s hs => congrArg (Option.map _) (lookup?_loads hload hs)
  order := fun s t hs ht => index_place_lt_iff hs ht
  rules := by
    have hproductions := hload.productions
    rw [describe, List.forall₂_map_left_iff] at hproductions
    have hall := (List.forall₂_and_left _ _).mpr ⟨hg.admits, hproductions⟩
    rw [Grammar.system, Grammar.system, List.map_map]
    exact (map_eq_map_of_forall₂ hall fun q q' hq =>
      (toRule_eq_of_tells hload.distinct hq.1 hq.2).symm).symm

theorem sameNames_loads : SameNames (g.place id) g h where
  names := fun s hs => congrArg (Option.map _) (lookup?_loads hload hs)
  labels := by
    have hproductions := hload.productions
    rw [describe, List.forall₂_map_left_iff] at hproductions
    exact (map_eq_map_of_forall₂ hproductions fun q q' htells => htells.label.symm).symm

end Reload

/-! ## Failed transformations -/

theorem isomorphic_reverts (hrev : Reverts g h) : Isomorphic (fun s => s) g h where
  live := by
    have hset : {s | h.symbols.contains s = true} = {s | g.symbols.contains s = true} := by
      simp only [SymbolTable.contains, hrev.lookup]
    rw [hset]
    exact Set.bijOn_id _
  kind := fun s _ => congrArg (Option.map _) (hrev.lookup s)
  order := fun _ _ _ _ => Iff.rfl
  rules := by
    have hrename : Rule.rename (fun s => s) = fun r => r := by
      funext r
      rw [Rule.rename, List.map_id']
    rw [hrename, List.map_id', system, system, hrev.productions]

theorem sameNames_reverts (hrev : Reverts g h) : SameNames (fun s => s) g h where
  names := fun s _ => congrArg (Option.map _) (hrev.lookup s)
  labels := congrArg (List.map _) hrev.productions

/-! ## Copies -/

/-- The grammars that come of a grammar without a change of its structure or its names. -/
inductive Copy (g : Grammar) : Grammar → Prop
  | cloned (id : Identity) : Copy g (g.clone id)
  | reloaded {id : Identity} {h : Grammar} (hok : ofDescription id g.describe = .ok h) : Copy g h
  | notEliminated {options : Options} {error : Transform.Error}
      (herror : (g.eliminateLeftRecursion options).result = .error error) :
      Copy g (g.eliminateLeftRecursion options).grammar
  | notFactored {options : Options} {error : Transform.Error}
      (herror : (g.leftFactor options).result = .error error) :
      Copy g (g.leftFactor options).grammar

theorem Copy.exists_isomorphic (hcopy : g.Copy h) (hg : g.WellFormed) :
    ∃ φ, Isomorphic φ g h ∧ SameNames φ g h ∧ h.WellFormed := by
  cases hcopy with
  | cloned id => exact ⟨_, isomorphic_clone g id, sameNames_clone g id, hg.clone id⟩
  | reloaded hok =>
      have hload := Description.loads_of_ofDescription hok
      exact ⟨_, isomorphic_loads hload hg, sameNames_loads hload, wellFormed_of_ofDescription hok⟩
  | @notEliminated options _ herror =>
      have hrev := reverts_eliminateLeftRecursion options hg herror
      exact ⟨_, isomorphic_reverts hrev, sameNames_reverts hrev, hg.eliminateLeftRecursion options⟩
  | @notFactored options _ herror =>
      have hrev := reverts_leftFactor options hg herror
      exact ⟨_, isomorphic_reverts hrev, sameNames_reverts hrev, hg.leftFactor options⟩

end Grammar

/-! ## Outcomes as they are shown -/

namespace Transform

open Grammar

/-- An outcome for whoever reads names only. -/
structure Rendering where
  /-- The production list, one line for each production. -/
  text : String
  labels : List String
  /-- The names of the helpers, or the message of the failure. -/
  answer : Except String (List String)

def Outcome.rendering (o : Outcome) : Rendering where
  text := o.grammar.text
  labels := o.grammar.productions.map (·.label)
  answer := match o.result with
    | .ok helpers => .ok (helpers.map o.grammar.displayName)
    | .error error => .error error.message

variable {φ : Symbol → Symbol} {g h : Grammar} {named : Prop} {o o' : Outcome}

/-- Outcomes that are the same under the same names are shown alike, if failures change nothing. -/
theorem SameOutcome.rendering_eq (hsame : SameOutcome named φ g h o o') (hn : named)
    (hiso : Isomorphic φ g h) (hnames : SameNames φ g h) (hg : g.WellFormed) (hh : h.WellFormed)
    (ho : o.grammar.WellFormed) (hrev : ∀ error, o.result = .error error → Reverts g o.grammar)
    (hrev' : ∀ error, o'.result = .error error → Reverts h o'.grammar) :
    o'.rendering = o.rendering := by
  unfold SameOutcome at hsame
  cases hresult : o.result with
  | ok helpers =>
      cases hresult' : o'.result with
      | ok helpers' =>
          rw [hresult, hresult'] at hsame
          obtain ⟨ψ, -, -, hiso', -, hshown⟩ := hsame
          obtain ⟨hnames', hhelpers⟩ := hshown hn
          rw [Outcome.rendering, Outcome.rendering, hresult, hresult', text_eq hnames' hiso' ho,
            hnames'.labels]
          exact congrArg (fun names => Rendering.mk _ _ (.ok names)) hhelpers
      | error error' =>
          rw [hresult, hresult'] at hsame
          exact hsame.elim
  | error error =>
      cases hresult' : o'.result with
      | ok helpers' =>
          rw [hresult, hresult'] at hsame
          exact hsame.elim
      | error error' =>
          rw [hresult, hresult'] at hsame
          have hr := hrev error hresult
          have hr' := hrev' error' hresult'
          have htext : o'.grammar.text = o.grammar.text := calc
            o'.grammar.text = h.text := text_eq (sameNames_reverts hr') (isomorphic_reverts hr') hh
            _ = g.text := text_eq hnames hiso hg
            _ = o.grammar.text := (text_eq (sameNames_reverts hr) (isomorphic_reverts hr) hg).symm
          rw [Outcome.rendering, Outcome.rendering, hresult, hresult', htext, hr.productions,
            hr'.productions, hnames.labels, hsame.2 hn]

/-- **The transformations depend on the structure of a grammar alone.** On isomorphic grammars and
under the same limit they succeed on both or fail on both for one cause; if they succeed, helpers
go with helpers, the new grammars are isomorphic, and productions are kept at the same positions.
Under the same names and suffixes they use the same names, labels and messages. So a copy of a
grammar is transformed as the grammar itself. -/
theorem outcomes_of_isomorphic (hg : g.Reachable) :
    (∀ (h : Grammar) (φ : Symbol → Symbol) (options options' : Options), h.Reachable →
      Isomorphic φ g h → options.limit = options'.limit →
      let named := SameNames φ g h ∧ options.suffix = options'.suffix
      SameOutcome named φ g h (g.eliminateLeftRecursion options)
          (h.eliminateLeftRecursion options') ∧
        SameOutcome named φ g h (g.leftFactor options) (h.leftFactor options')) ∧
    ∀ h, g.Copy h → ∀ options,
      (h.eliminateLeftRecursion options).rendering =
          (g.eliminateLeftRecursion options).rendering ∧
        (h.leftFactor options).rendering = (g.leftFactor options).rendering := by
  have hwf := hg.wellFormed
  refine ⟨fun h φ options options' hh hiso hlimit => ?_, fun h hcopy options => ?_⟩
  · have hwf' := hh.wellFormed
    exact ⟨sameOutcome_eliminateLeftRecursion hiso hwf hwf' hlimit id,
      sameOutcome_leftFactor hiso hwf hwf' hlimit id⟩
  · obtain ⟨φ, hiso, hnames, hwf'⟩ := hcopy.exists_isomorphic hwf
    have hsame : True → SameNames φ g h ∧ options.suffix = options.suffix := fun _ => ⟨hnames, rfl⟩
    constructor
    · exact (sameOutcome_eliminateLeftRecursion hiso hwf hwf' rfl hsame).rendering_eq trivial hiso
        hnames hwf hwf' (hwf.eliminateLeftRecursion options)
        (fun _ => reverts_eliminateLeftRecursion options hwf)
        fun _ => reverts_eliminateLeftRecursion options hwf'
    · exact (sameOutcome_leftFactor hiso hwf hwf' rfl hsame).rendering_eq trivial hiso
        hnames hwf hwf' (hwf.leftFactor options)
        (fun _ => reverts_leftFactor options hwf) fun _ => reverts_leftFactor options hwf'

/-- The sample grammar under other names, with its symbols in another order and one erased. -/
def renamedSample : Grammar :=
  let start : Symbol := ⟨⟨2⟩, 2⟩
  let a : Symbol := ⟨⟨2⟩, 3⟩
  let b : Symbol := ⟨⟨2⟩, 0⟩
  (Edit.applyAll (.empty ⟨2⟩)
    [.addSymbols .terminal ["y", "z"], .addSymbol .nonterminal "T", .addSymbol .terminal "x",
      .eraseSymbol ⟨⟨2⟩, 1⟩, .build start [.alternative [start, a], .alternative [a],
        .alternative [a, b]]]).1

def counterpart (s : Symbol) : Symbol := ⟨⟨2⟩, ([2, 3, 0][s.index]?).getD s.index⟩

theorem reachable_renamedSample : renamedSample.Reachable := (Reachable.empty ⟨2⟩).applyAll _

theorem isomorphic_renamedSample : Isomorphic counterpart Grammar.sample renamedSample where
  live := by
    have hset : ∀ f : Grammar, {s | f.symbols.contains s = true} = {s | s ∈ f.symbols.symbols} :=
      fun f => Set.ext fun s => SymbolTable.mem_symbols.symm
    rw [hset, hset]
    refine ⟨fun s hs => ?_, fun s hs t ht => ?_, fun s hs => ?_⟩
    · exact (by decide : ∀ s ∈ Grammar.sample.symbols.symbols,
        counterpart s ∈ renamedSample.symbols.symbols) s hs
    · exact (by decide : ∀ s ∈ Grammar.sample.symbols.symbols,
        ∀ t ∈ Grammar.sample.symbols.symbols, counterpart s = counterpart t → s = t) s hs t ht
    · exact (by decide : ∀ s ∈ renamedSample.symbols.symbols,
        ∃ t ∈ Grammar.sample.symbols.symbols, counterpart t = s) s hs
  kind := by
    intro s hs
    exact (by decide : ∀ s ∈ Grammar.sample.symbols.symbols,
      renamedSample.symbols.kind? (counterpart s) = Grammar.sample.symbols.kind? s) s
        (SymbolTable.mem_symbols.mpr hs)
  order := by
    intro s t hs ht
    exact (by decide : ∀ s ∈ Grammar.sample.symbols.nonterminals,
      ∀ t ∈ Grammar.sample.symbols.nonterminals,
        (s.index < t.index ↔ (counterpart s).index < (counterpart t).index)) s
          (SymbolTable.mem_nonterminals_iff.mpr hs) t (SymbolTable.mem_nonterminals_iff.mpr ht)
  rules := by decide

theorem outcomes_of_isomorphic_sample :
    (Grammar.sample.eliminateLeftRecursion {}).result = .ok [⟨⟨1⟩, 3⟩] ∧
      (∃ ψ, (renamedSample.eliminateLeftRecursion { suffix := "_" }).result = .ok [ψ ⟨⟨1⟩, 3⟩] ∧
        Isomorphic ψ (Grammar.sample.eliminateLeftRecursion {}).grammar
          (renamedSample.eliminateLeftRecursion { suffix := "_" }).grammar) ∧
      ((Grammar.sample.clone ⟨2⟩).leftFactor {}).rendering =
        (Grammar.sample.leftFactor {}).rendering := by
  have hok : (Grammar.sample.eliminateLeftRecursion {}).result = .ok [⟨⟨1⟩, 3⟩] := by
    decide +kernel
  obtain ⟨hsame, hcopy⟩ := outcomes_of_isomorphic Grammar.reachable_sample
  have hresult := (hsame renamedSample counterpart {} { suffix := "_" } reachable_renamedSample
    isomorphic_renamedSample rfl).1
  refine ⟨hok, ?_, (hcopy _ (.cloned ⟨2⟩) {}).2⟩
  unfold SameOutcome at hresult
  rw [hok] at hresult
  cases hok' : (renamedSample.eliminateLeftRecursion { suffix := "_" }).result with
  | error error =>
      rw [hok'] at hresult
      exact hresult.elim
  | ok helpers =>
      rw [hok'] at hresult
      obtain ⟨ψ, -, rfl, hiso, -⟩ := hresult
      exact ⟨ψ, rfl, hiso⟩

end Transform

end TopDown
