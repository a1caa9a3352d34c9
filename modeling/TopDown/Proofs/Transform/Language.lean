import TopDown.Proofs.Spelling
import TopDown.Proofs.Transform.Tracking

/-!
# The language under a transformation

* `Grammar.language` is the language of a symbol of a grammar.
* `Progress.Preserves g p` says that the drafts of `p` spell what the rules of `g` spell, as far
  as symbols of `g` go; helpers may spell anything.
* `Preserves.commit`: a progress that preserves the language commits to a grammar whose
  nonterminals have the languages they had before.
-/

namespace TopDown

namespace Grammar

def IsTerminal (g : Grammar) (s : Symbol) : Prop := g.symbols.kind? s = some .terminal

def language (g : Grammar) (a : Symbol) : Language Symbol :=
  languageOf g.system.rules g.IsTerminal a

theorem not_isTerminal_of_kind? {g : Grammar} {s : Symbol}
    (h : g.symbols.kind? s = some .nonterminal) : ¬g.IsTerminal s := by
  intro hs
  rw [IsTerminal, h] at hs
  cases hs

end Grammar

namespace Transform.Progress

variable {g : Grammar} {p q : Progress} {a : Symbol}

/-- The drafts of `p` spell what the rules of `g` spell. -/
def Preserves (g : Grammar) (p : Progress) : Prop :=
  ∀ γ, (∀ s ∈ γ, g.symbols.contains s = true) → ∀ w,
    Spells (rulesOf p.drafts) g.IsTerminal γ w ↔ Spells g.system.rules g.IsTerminal γ w

theorem preserves_start (g : Grammar) (journal : Array Event) : (start g journal).Preserves g := by
  intro γ _ w
  rw [rules_eq_rulesOf]
  exact Iff.rfl

theorem Preserves.trans (h : p.Preserves g)
    (hstep : ∀ γ, (∀ s ∈ γ, g.symbols.contains s = true) → ∀ w,
      Spells (rulesOf q.drafts) g.IsTerminal γ w ↔ Spells (rulesOf p.drafts) g.IsTerminal γ w) :
    q.Preserves g :=
  fun γ hγ w => (hstep γ hγ w).trans (h γ hγ w)

/-- A helper is issued, and what is spelled without it stays the same. -/
theorem Preserves.introduce (h : p.Preserves g) (htracks : p.Tracks g) {options : Options}
    {base : Symbol} {drafts : List Draft} (journal : Array Event)
    (hspells : let helper := (p.introduce options base).1
      ¬g.IsTerminal helper → (∀ r ∈ rulesOf p.drafts, r.lhs ≠ helper ∧ helper ∉ r.rhs) →
        ∀ γ w, helper ∉ γ →
          (Spells (rulesOf drafts) g.IsTerminal γ w ↔
            Spells (rulesOf p.drafts) g.IsTerminal γ w)) :
    { (p.introduce options base).2 with drafts, changed := true, journal }.Preserves g := by
  have hleaf : ¬g.IsTerminal (p.introduce options base).1 := fun hs =>
    htracks.ne_introduce (SymbolTable.contains_of_kind? hs) rfl
  exact h.trans fun γ hγ w => hspells hleaf (htracks.fresh options base) γ w fun hmem =>
    htracks.ne_introduce (hγ _ hmem) rfl

/-- **The language at the end.** -/
theorem Preserves.language_commit (h : p.Preserves g) (htracks : p.Tracks g) (hg : g.WellFormed)
    (ha : g.symbols.contains a = true) : p.commit.grammar.language a = g.language a := by
  obtain ⟨-, hrules, hsymbols, -⟩ := htracks.commit_eq hg
  have hterminal : p.commit.grammar.IsTerminal = g.IsTerminal := by
    funext s
    rw [Grammar.IsTerminal, hsymbols]
    exact propext htracks.terminal_iff
  ext w
  rw [Grammar.language, Grammar.language, hrules, hterminal, mem_languageOf, mem_languageOf]
  exact h [a] (by simpa using ha) w

/-- Nonterminals stay nonterminals and keep their languages, and so does the start symbol. -/
theorem Preserves.commit (h : p.Preserves g) (htracks : p.Tracks g) (hg : g.WellFormed) :
    (∀ a, g.symbols.kind? a = some .nonterminal →
      p.commit.grammar.symbols.kind? a = some .nonterminal ∧
        p.commit.grammar.language a = g.language a) ∧
    p.commit.grammar.start = g.start ∧
    ∀ s, g.start = some s → p.commit.grammar.language s = g.language s := by
  obtain ⟨-, -, hsymbols, hstart⟩ := htracks.commit_eq hg
  have hlanguage : ∀ a, g.symbols.kind? a = some .nonterminal →
      p.commit.grammar.language a = g.language a := fun a ha =>
    h.language_commit htracks hg (SymbolTable.contains_of_kind? ha)
  refine ⟨fun a ha => ⟨?_, hlanguage a ha⟩, hstart, fun s hs => hlanguage s (hg.start s hs)⟩
  rw [hsymbols, htracks.kind?_of_contains (SymbolTable.contains_of_kind? ha)]
  exact ha

end Transform.Progress

end TopDown
