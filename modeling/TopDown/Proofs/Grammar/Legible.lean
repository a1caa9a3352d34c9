import Mathlib.Data.Set.Function
import TopDown.Grammar.Text
import TopDown.Proofs.Grammar.Reachable

/-!
# Legible grammars

Nothing is escaped in the text of a grammar, so whether it can be read depends on the names. Where
no name has a space or a line end in it, cutting the text at line ends and each line at spaces
gives back the words that were written, even empty ones and names that look like the arrow. Where
no name is `ε` either and no two live symbols share a name, the words give back the rule.

* `Grammar.ruleWords` is what a rule is written with, word for word.
* `Grammar.Legible.read_rulesText` reads the words of a list of rules back from its text.
* `Grammar.rulesText_lossless`: rules with the same text are the same rules.
-/

namespace TopDown

/-- A function that tells the elements of two lists apart tells the lists apart. -/
theorem eq_of_map_eq_of_injOn {α β : Type} {f : α → β} {s : Set α} (hf : Set.InjOn f s)
    {xs ys : List α} (hxs : ∀ x ∈ xs, x ∈ s) (hys : ∀ y ∈ ys, y ∈ s) (h : xs.map f = ys.map f) :
    xs = ys := by
  induction xs generalizing ys with
  | nil => exact (List.map_eq_nil_iff.mp h.symm).symm
  | cons x xs ih =>
      obtain ⟨y, ys', rfl, hhead, htail⟩ := List.map_eq_cons_iff.mp h.symm
      rw [List.forall_mem_cons] at hxs hys
      rw [hf hys.1 hxs.1 hhead, ih hxs.2 hys.2 htail.symm]

/-- Lines that each end in a mark are separated by it, with an empty line behind the last. -/
theorem flatMap_append_singleton {α : Type} (mark : α) (lines : List (List α)) :
    lines.flatMap (· ++ [mark]) = [mark].intercalate (lines ++ [[]]) := by
  induction lines with
  | nil => rfl
  | cons line lines ih =>
      rw [List.flatMap_cons, ih, List.cons_append, List.intercalate_cons_of_ne_nil (by simp)]

/-- Words with a mark before each are separated by it from the word in front of them. -/
theorem append_flatMap_cons {α : Type} (mark : α) (word : List α) (words : List (List α)) :
    word ++ words.flatMap (mark :: ·) = [mark].intercalate (word :: words) := by
  induction words generalizing word with
  | nil => simp
  | cons next words ih =>
      rw [List.intercalate_cons_cons, ← ih, List.flatMap_cons]
      simp

theorem SymbolTable.contains_of_name? {table : SymbolTable} {s : Symbol} {name : String}
    (h : table.name? s = some name) : table.contains s = true := by
  obtain ⟨entry, hentry, -⟩ := Option.map_eq_some_iff.mp h
  exact Option.isSome_iff_exists.mpr ⟨entry, hentry⟩

namespace Grammar

variable {g : Grammar} {rule rule' : Rule} {rules : List Rule}

/-- The names of the live symbols can be told apart, from each other and from what stands around
them in a text. -/
structure Legible (g : Grammar) : Prop where
  distinct : Set.InjOn g.symbols.name? {s | g.symbols.contains s = true}
  oneWord : ∀ s name, g.symbols.name? s = some name → ' ' ∉ name.toList
  oneLine : ∀ s name, g.symbols.name? s = some name → '\n' ∉ name.toList
  visible : ∀ s, g.symbols.name? s ≠ some "ε"

theorem legible_iff : g.Legible ↔
    (∀ s ∈ g.symbols.symbols, ∀ t ∈ g.symbols.symbols,
      g.symbols.name? s = g.symbols.name? t → s = t) ∧
    ∀ s ∈ g.symbols.symbols, ' ' ∉ (g.displayName s).toList ∧ '\n' ∉ (g.displayName s).toList ∧
      g.displayName s ≠ "ε" := by
  simp only [SymbolTable.mem_symbols]
  constructor
  · intro h
    refine ⟨fun s hs t ht => h.distinct hs ht, fun s hs => ?_⟩
    have hname := name?_eq_some_displayName hs
    refine ⟨h.oneWord s _ hname, h.oneLine s _ hname, fun heq => h.visible s ?_⟩
    rw [hname, heq]
  · rintro ⟨hdistinct, hplain⟩
    have hname : ∀ s name, g.symbols.name? s = some name →
        ' ' ∉ name.toList ∧ '\n' ∉ name.toList ∧ name ≠ "ε" := by
      intro s name hs
      have h := hplain s (SymbolTable.contains_of_name? hs)
      rwa [displayName, hs] at h
    exact ⟨fun s hs t ht => hdistinct s hs t ht, fun s name hs => (hname s name hs).1,
      fun s name hs => (hname s name hs).2.1, fun s hs => (hname s _ hs).2.2 rfl⟩

instance : Decidable g.Legible := decidable_of_iff _ legible_iff.symm

def IsLive (g : Grammar) (rule : Rule) : Prop :=
  g.symbols.contains rule.lhs = true ∧ ∀ s ∈ rule.rhs, g.symbols.contains s = true

instance : Decidable (g.IsLive rule) := inferInstanceAs (Decidable (_ ∧ _))

theorem WellFormed.isLive (h : g.WellFormed) : ∀ r ∈ g.productions.map (·.toRule), g.IsLive r :=
  List.forall_mem_map.mpr fun p hp =>
    ⟨SymbolTable.contains_of_kind? (h.admits p hp).1, (h.admits p hp).2⟩

/-- The text of rules depends on the symbols of the grammar only. -/
theorem rulesText_congr {h : Grammar} (hsymbols : h.symbols = g.symbols) (rules : List Rule) :
    h.rulesText rules = g.rulesText rules := by
  have hname : h.displayName = g.displayName := by
    funext s
    rw [displayName, displayName, hsymbols]
  have hrhs : ∀ rhs, h.rhsText rhs = g.rhsText rhs := by
    intro rhs
    cases rhs <;> simp only [rhsText, hname]
  simp only [rulesText, ruleText, hname, hrhs]

/-! ## Words -/

def rhsWords (g : Grammar) : List Symbol → List String
  | [] => ["ε"]
  | rhs => rhs.map g.displayName

def ruleWords (g : Grammar) (rule : Rule) : List String :=
  g.displayName rule.lhs :: "->" :: g.rhsWords rule.rhs

theorem toList_rhsText (rhs : List Symbol) :
    (g.rhsText rhs).toList = ((g.rhsWords rhs).map String.toList).flatMap (' ' :: ·) := by
  cases rhs with
  | nil => simp [rhsText, rhsWords]
  | cons s rhs => simp [rhsText, rhsWords, String.toList_join, List.flatMap_map]

/-- The words of a rule stand in its text with a space between each two. -/
theorem toList_ruleText (rule : Rule) :
    (g.ruleText rule).toList = [' '].intercalate ((g.ruleWords rule).map String.toList) := by
  have harrow : " ->".toList = ' ' :: "->".toList := by simp
  rw [ruleText, String.toList_append, String.toList_append, toList_rhsText, harrow,
    List.append_assoc, ruleWords, List.map_cons, List.map_cons, ← append_flatMap_cons,
    List.flatMap_cons]

theorem toList_rulesText (rules : List Rule) :
    (g.rulesText rules).toList =
      ['\n'].intercalate (rules.map (fun rule => (g.ruleText rule).toList) ++ [[]]) := by
  rw [← flatMap_append_singleton, rulesText, String.toList_join, List.flatMap_map,
    List.flatMap_map]
  simp

/-- A character that no name has is in no word, if neither the arrow nor `ε` has it. -/
theorem not_mem_of_mem_ruleWords {c : Char}
    (hname : ∀ s name, g.symbols.name? s = some name → c ∉ name.toList)
    (harrow : c ∉ "->".toList) (hempty : c ∉ "ε".toList) (hrule : g.IsLive rule) :
    ∀ word ∈ g.ruleWords rule, c ∉ word.toList := by
  have hlive : ∀ s, g.symbols.contains s = true → c ∉ (g.displayName s).toList := fun s hs =>
    hname s _ (name?_eq_some_displayName hs)
  intro word hword
  obtain ⟨lhs, rhs⟩ := rule
  rcases List.mem_cons.mp hword with rfl | hword
  · exact hlive lhs hrule.1
  rcases List.mem_cons.mp hword with rfl | hword
  · exact harrow
  cases rhs with
  | nil =>
      rw [List.mem_singleton.mp hword]
      exact hempty
  | cons s rhs =>
      obtain ⟨t, ht, rfl⟩ := List.mem_map.mp hword
      exact hlive t (hrule.2 t ht)

/-- A character that is in no word of a rule, and no space, is not in its text. -/
theorem not_mem_ruleText {c : Char} (hspace : c ≠ ' ')
    (hwords : ∀ word ∈ g.ruleWords rule, c ∉ word.toList) : c ∉ (g.ruleText rule).toList := by
  rw [toList_ruleText, ruleWords, List.map_cons, ← append_flatMap_cons]
  simp only [List.mem_append, List.mem_flatMap]
  rintro (hmem | ⟨_, hword, hmem⟩)
  · exact hwords _ List.mem_cons_self hmem
  · obtain ⟨word, hmem', rfl⟩ := List.mem_map.mp hword
    rcases List.mem_cons.mp hmem with rfl | hmem
    · exact hspace rfl
    · exact hwords word (List.mem_cons_of_mem _ hmem') hmem

namespace Legible

variable (hg : g.Legible)
include hg

theorem displayName_ne {s : Symbol} (hs : g.symbols.contains s = true) : g.displayName s ≠ "ε" := by
  have hname := hg.visible s
  rw [name?_eq_some_displayName hs] at hname
  exact fun heq => hname (congrArg some heq)

theorem displayName_injOn : Set.InjOn g.displayName {s | g.symbols.contains s = true} := by
  intro s hs t ht heq
  refine hg.distinct hs ht ?_
  rw [name?_eq_some_displayName hs, name?_eq_some_displayName ht, heq]

/-- An empty right-hand side is told apart from the others by its word. -/
theorem rhs_eq_of_rhsWords {rhs rhs' : List Symbol}
    (hrhs : ∀ s ∈ rhs, g.symbols.contains s = true)
    (hrhs' : ∀ s ∈ rhs', g.symbols.contains s = true) (h : g.rhsWords rhs = g.rhsWords rhs') :
    rhs = rhs' := by
  have hsingle : ∀ s rhs, g.symbols.contains s = true → ["ε"] ≠ (s :: rhs).map g.displayName :=
    fun s rhs hs heq => hg.displayName_ne hs (List.cons_eq_cons.mp heq).1.symm
  cases rhs with
  | nil =>
      cases rhs' with
      | nil => rfl
      | cons s rhs' => exact absurd h (hsingle s rhs' (hrhs' s List.mem_cons_self))
  | cons s rhs =>
      cases rhs' with
      | nil => exact absurd h.symm (hsingle s rhs (hrhs s List.mem_cons_self))
      | cons t rhs' => exact eq_of_map_eq_of_injOn hg.displayName_injOn hrhs hrhs' h

theorem ruleWords_injOn : Set.InjOn g.ruleWords {rule | g.IsLive rule} := by
  rintro ⟨lhs, rhs⟩ ⟨hlhs, hrhs⟩ ⟨lhs', rhs'⟩ ⟨hlhs', hrhs'⟩ h
  obtain ⟨hleft, htail⟩ := List.cons_eq_cons.mp h
  obtain ⟨-, hright⟩ := List.cons_eq_cons.mp htail
  have hl : lhs = lhs' := hg.displayName_injOn hlhs hlhs' hleft
  have hr : rhs = rhs' := hg.rhs_eq_of_rhsWords hrhs hrhs' hright
  rw [hl, hr]

/-! ## Reading a text -/

/-- Cutting the text of a rule at spaces gives its words. -/
theorem splitOn_ruleText (hrule : g.IsLive rule) :
    (g.ruleText rule).toList.splitOn ' ' = (g.ruleWords rule).map String.toList := by
  have hspace : ∀ word ∈ (g.ruleWords rule).map String.toList, ' ' ∉ word :=
    List.forall_mem_map.mpr
      (not_mem_of_mem_ruleWords hg.oneWord (by decide) (by decide) hrule)
  rw [toList_ruleText]
  exact List.splitOn_intercalate ' ' hspace (by simp [ruleWords])

theorem newline_not_mem_ruleText (hrule : g.IsLive rule) : '\n' ∉ (g.ruleText rule).toList :=
  not_mem_ruleText (by decide)
    (not_mem_of_mem_ruleWords hg.oneLine (by decide) (by decide) hrule)

/-- **A text can be read back.** Cutting the text of a list of rules at line ends, and each line at
spaces, gives the words of each rule in turn; behind the last line end there is nothing. -/
theorem read_rulesText (hrules : ∀ r ∈ rules, g.IsLive r) :
    ((g.rulesText rules).toList.splitOn '\n').map (·.splitOn ' ') =
      rules.map (fun rule => (g.ruleWords rule).map String.toList) ++ [[[]]] := by
  have hlines : ∀ line ∈ rules.map (fun rule => (g.ruleText rule).toList) ++ [[]],
      '\n' ∉ line := by
    intro line hline
    rcases List.mem_append.mp hline with hline | hline
    · obtain ⟨rule, hrule, rfl⟩ := List.mem_map.mp hline
      exact hg.newline_not_mem_ruleText (hrules rule hrule)
    · rw [List.mem_singleton.mp hline]
      exact List.not_mem_nil
  rw [toList_rulesText, List.splitOn_intercalate '\n' hlines (by simp), List.map_append,
    List.map_map]
  refine congrArg₂ _ (List.map_congr_left fun rule hrule => ?_) rfl
  exact hg.splitOn_ruleText (hrules rule hrule)

theorem eq_of_rulesText {rules' : List Rule} (hrules : ∀ r ∈ rules, g.IsLive r)
    (hrules' : ∀ r ∈ rules', g.IsLive r) (h : g.rulesText rules = g.rulesText rules') :
    rules = rules' := by
  have hread := hg.read_rulesText hrules
  rw [h, hg.read_rulesText hrules'] at hread
  have hinj : Set.InjOn (fun rule => (g.ruleWords rule).map String.toList)
      {rule | g.IsLive rule} :=
    (List.map_injective_iff.mpr fun _ _ => String.toList_inj.mp).comp_injOn hg.ruleWords_injOn
  exact (eq_of_map_eq_of_injOn hinj hrules' hrules (List.append_cancel_right hread)).symm

end Legible

/-- **Texts are lossless.** In a legible grammar two lists of rules over live symbols have the same
text only if they are the same rules in the same order. So among the states of a grammar with the
same symbols the text tells the production list, up to IDs and labels. -/
theorem rulesText_lossless (hreach : g.Reachable) (hg : g.Legible) :
    (∀ rules rules' : List Rule, (∀ r ∈ rules, g.IsLive r) → (∀ r ∈ rules', g.IsLive r) →
      (g.rulesText rules = g.rulesText rules' ↔ rules = rules')) ∧
    ∀ h : Grammar, h.Reachable → h.symbols = g.symbols →
      (h.text = g.text ↔ h.productions.map (·.toRule) = g.productions.map (·.toRule)) := by
  refine ⟨fun rules rules' hrules hrules' => ⟨hg.eq_of_rulesText hrules hrules', congrArg _⟩,
    fun h hh hsymbols => ?_⟩
  have htext : h.text = g.rulesText (h.productions.map (·.toRule)) :=
    rulesText_congr hsymbols _
  have hlive : ∀ r ∈ h.productions.map (·.toRule), g.IsLive r := by
    have := hh.wellFormed.isLive
    simpa only [IsLive, hsymbols] using this
  rw [htext]
  exact ⟨hg.eq_of_rulesText hlive hreach.wellFormed.isLive, congrArg _⟩

/-- A nonterminal that is named like the arrow and a terminal without a letter, with the rules
`-> → ε` and `-> → ` followed by the terminal twice. -/
def bareNames : Grammar :=
  (Edit.applyAll (.empty ⟨1⟩)
    [.addSymbol .nonterminal "->", .addSymbol .terminal "",
      .build ⟨⟨1⟩, 0⟩ [.alternative [], .alternative [⟨⟨1⟩, 1⟩, ⟨⟨1⟩, 1⟩]]]).1

/-- The text of `bareNames` is not that of its rules with a symbol less, and it changes when the
first rule is erased. -/
theorem rulesText_lossless_bareNames :
    bareNames.Reachable ∧ bareNames.Legible ∧
      bareNames.text ≠ bareNames.rulesText [⟨⟨⟨1⟩, 0⟩, []⟩, ⟨⟨⟨1⟩, 0⟩, [⟨⟨1⟩, 1⟩]⟩] ∧
      ((Edit.eraseProduction ⟨⟨1⟩, 0⟩).apply bareNames).1.text ≠ bareNames.text := by
  have hreach : bareNames.Reachable := (Reachable.empty ⟨1⟩).applyAll _
  have hg : bareNames.Legible := by decide +kernel
  obtain ⟨hrules, hstates⟩ := rulesText_lossless hreach hg
  refine ⟨hreach, hg, fun heq => ?_, fun heq => ?_⟩
  · have h := (hrules _ _ hreach.wellFormed.isLive (by decide +kernel)).mp heq
    revert h
    decide +kernel
  · have h := (hstates _ (hreach.edited _) (by decide +kernel)).mp heq
    revert h
    decide +kernel

end Grammar

end TopDown
