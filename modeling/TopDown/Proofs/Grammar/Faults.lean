import TopDown.Proofs.Grammar.WellFormed

/-!
# What handles and rules are refused for

The checks of a grammar answer with a cause. Here each cause is told by what the grammar is like,
and not by how the check looks for it.

* `Strays`, `Unknown`: a handle that is no live symbol, an ID that names no production.
* `MisfitsLeft`, `MisfitsRight`, `Misfits`: what does not fit on either side of a rule. Where
  several handles are wrong, the first one is the cause.
* `InUse`: what a live symbol cannot be erased for.
* `symbolFault?_eq_some_iff` and its likes: the checks answer with just these causes.
-/

namespace TopDown.Grammar

variable {g : Grammar} {s : Symbol} {i : Production.Id} {rhs : List Symbol} {rule : Rule}
  {e : Error}

/-! ## Causes -/

/-- A handle is no live symbol of the grammar: it was erased, or it was never issued here. -/
inductive Strays (g : Grammar) (s : Symbol) : Error → Prop
  | erased (hgone : g.symbols.contains s = false) (hissued : g.symbols.issued s = true) :
      Strays g s (.removedSymbol s)
  | foreign (hissued : g.symbols.issued s = false) : Strays g s (.foreignSymbol s)

/-- A handle does not fit on a left-hand side: it is a terminal, or no live symbol at all. -/
inductive MisfitsLeft (g : Grammar) (s : Symbol) : Error → Prop
  | terminal (hkind : g.symbols.kind? s = some .terminal) :
      MisfitsLeft g s (.notANonterminal (g.displayName s))
  | stray {e : Error} (hstray : g.Strays s e) : MisfitsLeft g s e

/-- A right-hand side has a symbol that is not live; the first one counts. -/
inductive MisfitsRight (g : Grammar) (rhs : List Symbol) : Error → Prop
  | stray {e : Error} {earlier later : List Symbol} {s : Symbol}
      (hrhs : rhs = earlier ++ s :: later)
      (hlive : ∀ t ∈ earlier, g.symbols.contains t = true) (hstray : g.Strays s e) :
      MisfitsRight g rhs e

/-- A rule is not admitted: its left-hand side does not fit, or else its right-hand side. -/
inductive Misfits (g : Grammar) (rule : Rule) : Error → Prop
  | lhs {e : Error} (hlhs : g.MisfitsLeft rule.lhs e) : Misfits g rule e
  | rhs {e : Error} (hlhs : g.symbols.kind? rule.lhs = some .nonterminal)
      (hrhs : g.MisfitsRight rule.rhs e) : Misfits g rule e

/-- An ID names no production of the grammar. -/
inductive Unknown (g : Grammar) (i : Production.Id) : Error → Prop
  | missing (hi : i ∉ g.ids) : Unknown g i (.unknownProduction i)

/-- A symbol is in use: productions mention it, the first of which is named, or else it is the
start symbol. -/
inductive InUse (g : Grammar) (s : Symbol) : Error → Prop
  | mentioned {before after : List Production} {p : Production}
      (hsplit : g.productions = before ++ p :: after) (hp : s = p.lhs ∨ s ∈ p.rhs)
      (hfirst : ∀ q ∈ before, ¬(s = q.lhs ∨ s ∈ q.rhs)) :
      InUse g s (.symbolInUse (g.displayName s) p.label)
  | start (hunused : ∀ p ∈ g.productions, ¬(s = p.lhs ∨ s ∈ p.rhs)) (hstart : g.start = some s) :
      InUse g s (.startSymbolInUse (g.displayName s))

theorem Strays.contains_eq_false (h : g.Strays s e) : g.symbols.contains s = false := by
  cases h with
  | erased hgone _ => exact hgone
  | foreign hissued =>
      rw [Bool.eq_false_iff]
      intro hs
      rw [SymbolTable.issued_of_contains hs] at hissued
      cases hissued

/-! ## The checks -/

theorem symbolFault?_eq_some_iff : g.symbolFault? s = some e ↔ g.Strays s e := by
  unfold symbolFault?
  constructor
  · intro hfault
    split at hfault
    · cases hfault
    · rename_i hgone
      split at hfault
      · rename_i hissued
        cases hfault
        exact .erased (Bool.eq_false_iff.mpr hgone) hissued
      · rename_i hissued
        cases hfault
        exact .foreign (Bool.eq_false_iff.mpr hissued)
  · intro hstray
    rw [hstray.contains_eq_false, if_neg Bool.false_ne_true]
    cases hstray with
    | erased _ hissued => rw [if_pos hissued]
    | foreign hissued => rw [hissued, if_neg Bool.false_ne_true]

theorem nonterminalFault?_eq_some_iff : g.nonterminalFault? s = some e ↔ g.MisfitsLeft s e := by
  constructor
  · intro hfault
    unfold nonterminalFault? at hfault
    split at hfault
    · cases hfault
    · rename_i hkind
      cases hfault
      exact .terminal hkind
    · exact .stray (symbolFault?_eq_some_iff.mp hfault)
  · intro hmisfits
    cases hmisfits with
    | terminal hkind => rw [nonterminalFault?, hkind]
    | stray hstray =>
        have hkind : g.symbols.kind? s = none := by
          by_contra hsome
          obtain ⟨kind, hkind⟩ := Option.ne_none_iff_exists'.mp hsome
          have hlive := SymbolTable.contains_of_kind? hkind
          rw [hstray.contains_eq_false] at hlive
          cases hlive
        rw [nonterminalFault?, hkind]
        exact symbolFault?_eq_some_iff.mpr hstray

theorem rhsFault?_eq_some_iff : g.rhsFault? rhs = some e ↔ g.MisfitsRight rhs e := by
  rw [rhsFault?, List.findSome?_eq_some_iff]
  simp only [symbolFault?_eq_some_iff, symbolFault?_eq_none_iff]
  constructor
  · rintro ⟨earlier, s, later, hrhs, hstray, hlive⟩
    exact .stray hrhs hlive hstray
  · rintro ⟨hrhs, hlive, hstray⟩
    exact ⟨_, _, _, hrhs, hstray, hlive⟩

theorem ruleFault?_eq_some_iff : g.ruleFault? rule = some e ↔ g.Misfits rule e := by
  rw [ruleFault?, Option.orElse_eq_orElse, Option.orElse_eq_or, Option.or_eq_some_iff,
    nonterminalFault?_eq_some_iff, nonterminalFault?_eq_none_iff, rhsFault?_eq_some_iff]
  constructor
  · rintro (hlhs | ⟨hlhs, hrhs⟩)
    · exact .lhs hlhs
    · exact .rhs hlhs hrhs
  · rintro (hlhs | ⟨hlhs, hrhs⟩)
    · exact Or.inl hlhs
    · exact Or.inr ⟨hlhs, hrhs⟩

theorem productionFault?_eq_some_iff : g.productionFault? i = some e ↔ g.Unknown i e := by
  constructor
  · intro hfault
    unfold productionFault? at hfault
    split at hfault
    · cases hfault
    · rename_i hnone
      cases hfault
      exact .missing (production?_eq_none_iff.mp (Option.not_isSome_iff_eq_none.mp hnone))
  · rintro ⟨hi⟩
    rw [productionFault?, production?_eq_none_iff.mpr hi]
    rfl

theorem eraseFault?_eq_some_iff : g.eraseFault? s = some e ↔ g.InUse s e := by
  constructor
  · intro hfault
    unfold eraseFault? at hfault
    split at hfault
    · rename_i p hfind
      cases hfault
      -- The production that the cause names is the first: no earlier one mentions the symbol.
      obtain ⟨hp, before, after, hsplit, hfirst⟩ := List.find?_eq_some_iff_append.mp hfind
      refine .mentioned hsplit (mentions_iff.mp hp) fun q hq hmentions => ?_
      simpa [mentions_iff.mpr hmentions] using hfirst q hq
    · rename_i hnone
      split at hfault
      · rename_i hstart
        cases hfault
        refine .start (fun p hp hmentions => ?_) hstart
        exact List.find?_eq_none.mp hnone p hp (mentions_iff.mpr hmentions)
      · cases hfault
  · intro huse
    cases huse with
    | @mentioned before after p hsplit hp hfirst =>
        have hfind : g.productions.find? (mentions s) = some p := by
          refine List.find?_eq_some_iff_append.mpr ⟨mentions_iff.mpr hp, before, after, hsplit,
            fun q hq => ?_⟩
          rw [Bool.not_eq_true', Bool.eq_false_iff]
          exact fun hmentions => hfirst q hq (mentions_iff.mp hmentions)
        rw [eraseFault?, hfind]
    | start hunused hstart =>
        have hnone : g.productions.find? (mentions s) = none :=
          List.find?_eq_none.mpr fun p hp hmentions => hunused p hp (mentions_iff.mp hmentions)
        rw [eraseFault?, hnone, if_pos hstart]

end TopDown.Grammar
