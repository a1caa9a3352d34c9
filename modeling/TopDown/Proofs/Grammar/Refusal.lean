import TopDown.Proofs.Grammar.Chains
import TopDown.Proofs.Grammar.Swap

/-!
# Refused edits

An edit that is refused, or that finds nothing to erase, leaves the grammar alone. Only a chain
may have done something before it was refused, and that is what its earlier steps asked for.

* `contains_used_iff`: the analysis of used symbols sees what the productions mention.
* `erases_iff`: a live symbol is erased exactly if no production uses it and it is not the start.
  `Erases g s g'`: nothing but the liveness of `s` changes.
* `Edit.RefusedFor`, `Edit.FindsNothing`: what each edit is refused for, and when there is nothing
  to erase. `refused_iff` and `notFound_iff`: the replies say just that.
* `unchanged_of_refused`: the edits other than chains leave the grammar alone.
* `refusal_exact`: all of it, with the chains of `build_eq_some_iff`.
-/

namespace TopDown.Grammar

open Transform

variable {g g' : Grammar} {s : Symbol} {e : Error}

/-! ## Symbols in use -/

theorem contains_used_iff (hg : g.WellFormed) :
    g.system.used.contains s = true ↔ ∃ p ∈ g.productions, s = p.lhs ∨ s ∈ p.rhs := by
  rw [RuleSystem.used, SymbolSet.contains_foldl_insert_iff, RuleSystem.contains_noSymbols]
  · simp [system]
  · intro t ht
    obtain ⟨r, hr, ht⟩ := List.mem_flatMap.mp ht
    obtain ⟨hlhs, hrhs⟩ := RuleSystem.isScoped_iff.mp hg.isScoped r hr
    rw [RuleSystem.spans_noSymbols]
    rcases List.mem_cons.mp ht with rfl | ht
    · exact hlhs
    · exact hrhs t ht

/-- The scan of the productions and the analysis of used symbols agree. -/
theorem not_uses_iff (hg : g.WellFormed) :
    ¬g.Uses s ↔ g.system.used.contains s = false ∧ g.start ≠ some s := by
  rw [Uses, not_or, Bool.eq_false_iff, Ne, contains_used_iff hg]

/-- A symbol is live no longer, and nothing else has changed: no index came or went, every other
handle is looked up as before, and productions, start symbol and counter are the same. -/
structure Erases (g : Grammar) (s : Symbol) (g' : Grammar) : Prop where
  id : g'.id = g.id
  size : g'.symbols.size = g.symbols.size
  gone : g'.symbols.contains s = false
  lookup : ∀ t, t ≠ s → g'.symbols.lookup? t = g.symbols.lookup? t
  productions : g'.productions = g.productions
  start : g'.start = g.start
  nextSerial : g'.nextSerial = g.nextSerial

theorem erases_of_eraseSymbol (hok : g.eraseSymbol s = .ok (some g')) : g.Erases s g' := by
  unfold eraseSymbol at hok
  split at hok
  · cases hok
  · rename_i table herase
    obtain ⟨-, hsome⟩ := grant_eq_ok_iff.mp hok
    obtain rfl := Option.some.inj hsome
    have hlookup := SymbolTable.lookup?_erase herase
    refine ⟨SymbolTable.id_of_erase? herase, SymbolTable.size_of_erase? herase, ?_,
      fun t ht => ?_, rfl, rfl, rfl⟩
    · rw [SymbolTable.contains, hlookup, if_pos rfl]
      rfl
    · rw [hlookup, if_neg ht]

theorem eraseSymbol_eq_none_iff : g.eraseSymbol s = .ok none ↔ g.symbols.contains s = false := by
  rw [eraseSymbol, SymbolTable.erase?, SymbolTable.contains]
  cases g.symbols.lookup? s with
  | none => simp
  | some entry => cases g.eraseFault? s <;> simp [grant]

/-- For a live symbol the answer hangs on its use alone. -/
theorem eraseSymbol_of_contains (hs : g.symbols.contains s = true) :
    ∃ table, g.eraseSymbol s = grant (g.eraseFault? s) (some { g with symbols := table }) := by
  obtain ⟨entry, hentry⟩ := Option.isSome_iff_exists.mp hs
  rw [eraseSymbol, SymbolTable.erase?, hentry]
  exact ⟨_, rfl⟩

theorem erases_iff (hg : g.WellFormed) (hs : g.symbols.contains s = true) :
    (∃ g', g.eraseSymbol s = .ok (some g')) ↔
      g.system.used.contains s = false ∧ g.start ≠ some s := by
  obtain ⟨table, heq⟩ := eraseSymbol_of_contains hs
  rw [← not_uses_iff hg, ← eraseFault?_eq_none_iff, heq]
  constructor
  · rintro ⟨g', hok⟩
    exact (grant_eq_ok_iff.mp hok).1
  · intro hnone
    exact ⟨_, grant_eq_ok_iff.mpr ⟨hnone, rfl⟩⟩

/-! ## What edits are refused for -/

/-- What an edit is refused for, in terms of the grammar that it comes to. Where several things
are wrong with it, the first one counts. -/
def Edit.RefusedFor (g : Grammar) (e : Error) : Edit → Prop
  | .addSymbol _ _ | .addSymbols _ _ | .clearStart | .eraseProduction _ => False
  | .renameSymbol s _ => g.Strays s e
  | .eraseSymbol s => g.symbols.contains s = true ∧ g.InUse s e
  | .setStart s => g.MisfitsLeft s e
  | .addProduction _ lhs rhs => g.Misfits ⟨lhs, rhs⟩ e
  | .build lhs steps => ∃ g' before step after, .rule lhs :: steps = before ++ step :: after ∧
      GrantsAll [] g before g' ∧ Refuses before g' step e
  | .setLhs i lhs =>
      g.MisfitsLeft lhs e ∨ g.symbols.kind? lhs = some .nonterminal ∧ g.Unknown i e
  | .setRhs i rhs =>
      g.MisfitsRight rhs e ∨ (∀ s ∈ rhs, g.symbols.contains s = true) ∧ g.Unknown i e
  | .setLabel i _ => g.Unknown i e
  | .replaceProductions drafts => ∃ before d after, drafts = before ++ d :: after ∧
      g.Replaceable before ∧ g.Offends (originsOf before) d e

/-- There is nothing for an edit to erase. -/
def Edit.FindsNothing (g : Grammar) : Edit → Prop
  | .eraseSymbol s => g.symbols.contains s = false
  | .eraseProduction i => i ∉ g.ids
  | _ => False

/-- An edit with one check is refused for what the check finds. -/
theorem refused_settle_iff {fault? : Option Error} {answer : Grammar} :
    (Edit.settle g (grant fault? answer)).2 = .refused e ↔ fault? = some e := by
  cases fault? <;> simp [grant, Edit.settle]

theorem refused_eraseSymbol_iff :
    (Edit.apply g (.eraseSymbol s)).2 = .refused e ↔
      g.symbols.contains s = true ∧ g.InUse s e := by
  rw [← eraseFault?_eq_some_iff]
  cases hs : g.symbols.contains s with
  | true =>
      obtain ⟨table, heq⟩ := eraseSymbol_of_contains hs
      rw [Edit.apply, heq]
      cases g.eraseFault? s <;> simp [grant]
  | false =>
      rw [Edit.apply, eraseSymbol_eq_none_iff.mpr hs]
      simp

theorem refused_build_iff {lhs : Symbol} {steps : List ChainStep} :
    (Edit.apply g (.build lhs steps)).2 = .refused e ↔
      ∃ g', g.build lhs steps = (g', some e) := by
  rw [Edit.apply]
  cases g.build lhs steps with
  | mk g' fault? => cases fault? <;> simp

/-- The check of each edit finds just what the edit is refused for. -/
theorem refused_iff (edit : Edit) : (edit.apply g).2 = .refused e ↔ edit.RefusedFor g e := by
  cases edit with
  | addSymbol kind name => simp [Edit.apply, Edit.RefusedFor]
  | addSymbols kind names => simp [Edit.apply, Edit.RefusedFor]
  | renameSymbol s name => exact refused_settle_iff.trans symbolFault?_eq_some_iff
  | eraseSymbol s => exact refused_eraseSymbol_iff
  | setStart s => exact refused_settle_iff.trans nonterminalFault?_eq_some_iff
  | clearStart => simp [Edit.apply, Edit.RefusedFor]
  | addProduction label lhs rhs =>
      rw [Edit.RefusedFor, ← ruleFault?_eq_some_iff, Edit.apply, addProduction]
      cases g.ruleFault? ⟨lhs, rhs⟩ <;> simp [grant]
  | build lhs steps =>
      rw [refused_build_iff]
      exact exists_congr fun g' => build_eq_some_iff
  | eraseProduction i =>
      rw [Edit.apply]
      cases g.eraseProduction? i <;> simp [Edit.RefusedFor]
  | setLhs i lhs =>
      rw [Edit.apply, setLhs, refused_settle_iff, Option.orElse_eq_orElse, Option.orElse_eq_or,
        Option.or_eq_some_iff, nonterminalFault?_eq_some_iff, nonterminalFault?_eq_none_iff,
        productionFault?_eq_some_iff, Edit.RefusedFor]
  | setRhs i rhs =>
      rw [Edit.apply, setRhs, refused_settle_iff, Option.orElse_eq_orElse, Option.orElse_eq_or,
        Option.or_eq_some_iff, rhsFault?_eq_some_iff, rhsFault?_eq_none_iff,
        productionFault?_eq_some_iff, Edit.RefusedFor]
  | setLabel i label => exact refused_settle_iff.trans productionFault?_eq_some_iff
  | replaceProductions drafts => exact refused_settle_iff.trans draftsFault?_eq_some_iff

theorem notFound_settle {x : Except Error Grammar} : (Edit.settle g x).2 ≠ .erased false := by
  cases x <;> simp [Edit.settle]

theorem notFound_iff (edit : Edit) :
    (edit.apply g).2 = .erased false ↔ edit.FindsNothing g := by
  cases edit with
  | addSymbol kind name => simp [Edit.apply, Edit.FindsNothing]
  | addSymbols kind names => simp [Edit.apply, Edit.FindsNothing]
  | renameSymbol s name => exact iff_of_false notFound_settle not_false
  | eraseSymbol s =>
      rw [Edit.FindsNothing, ← eraseSymbol_eq_none_iff, Edit.apply]
      split <;> simp_all
  | setStart s => exact iff_of_false notFound_settle not_false
  | clearStart => simp [Edit.apply, Edit.FindsNothing]
  | addProduction label lhs rhs =>
      rw [Edit.apply]
      split <;> simp [Edit.FindsNothing]
  | build lhs steps =>
      rw [Edit.apply]
      split <;> simp [Edit.FindsNothing]
  | eraseProduction i =>
      rw [Edit.FindsNothing, ← production?_eq_none_iff, Edit.apply, eraseProduction?]
      cases g.production? i <;> simp
  | setLhs i lhs => exact iff_of_false notFound_settle not_false
  | setRhs i rhs => exact iff_of_false notFound_settle not_false
  | setLabel i label => exact iff_of_false notFound_settle not_false
  | replaceProductions drafts => exact iff_of_false notFound_settle not_false

/-! ## What refused edits leave -/

/-- The reply says that nothing was done. -/
inductive Reply.IsRefusal : Reply → Prop
  | refused (e : Error) : IsRefusal (.refused e)
  | notFound : IsRefusal (.erased false)

theorem unchanged_of_settle {x : Except Error Grammar} (h : (Edit.settle g x).2.IsRefusal) :
    (Edit.settle g x).1 = g := by
  cases x with
  | ok _ => cases h
  | error _ => rfl

/-- An edit other than a chain that is refused changes nothing. -/
theorem unchanged_of_refused {edit : Edit} (hedit : ∀ lhs steps, edit ≠ .build lhs steps)
    (h : (edit.apply g).2.IsRefusal) : (edit.apply g).1 = g := by
  cases edit with
  | addSymbol kind name => cases h
  | addSymbols kind names => cases h
  | renameSymbol s name => exact unchanged_of_settle h
  | eraseSymbol s =>
      rw [Edit.apply] at h ⊢
      split at h
      · cases h
      · rfl
      · rfl
  | setStart s => exact unchanged_of_settle h
  | clearStart => cases h
  | addProduction label lhs rhs =>
      rw [Edit.apply] at h ⊢
      split at h
      · cases h
      · rfl
  | build lhs steps => exact absurd rfl (hedit lhs steps)
  | eraseProduction id =>
      rw [Edit.apply] at h ⊢
      split at h
      · cases h
      · rfl
  | setLhs id lhs => exact unchanged_of_settle h
  | setRhs id rhs => exact unchanged_of_settle h
  | setLabel id label => exact unchanged_of_settle h
  | replaceProductions drafts => exact unchanged_of_settle h

/-- **Refused edits.** Each edit is refused for what its checks ask of the grammar, and says that it
found nothing exactly if there is nothing to erase. If it is not a chain, it leaves the grammar as
it was then. A live symbol is erased exactly if the analysis finds it in no production and it is
not the start symbol, and its liveness is all that changes. A chain comes to its end if all its
steps are granted; otherwise it stops at the first that is refused, and the grammar is what the
steps before it made. -/
theorem refusal_exact (hg : g.Reachable) :
    (∀ (edit : Edit) e, (edit.apply g).2 = .refused e ↔ edit.RefusedFor g e) ∧
    (∀ edit : Edit, (edit.apply g).2 = .erased false ↔ edit.FindsNothing g) ∧
    (∀ edit : Edit, (∀ lhs steps, edit ≠ .build lhs steps) → (edit.apply g).2.IsRefusal →
      (edit.apply g).1 = g) ∧
    (∀ s, g.symbols.contains s = true → ((∃ g', g.eraseSymbol s = .ok (some g')) ↔
      g.system.used.contains s = false ∧ g.start ≠ some s)) ∧
    (∀ s g', g.eraseSymbol s = .ok (some g') → g.Erases s g') ∧
    (∀ lhs steps g', g.build lhs steps = (g', none) ↔
      GrantsAll [] g (.rule lhs :: steps) g') ∧
    ∀ lhs steps g' e, g.build lhs steps = (g', some e) ↔
      ∃ before step after, .rule lhs :: steps = before ++ step :: after ∧
        GrantsAll [] g before g' ∧ Refuses before g' step e :=
  ⟨fun edit _ => refused_iff edit, notFound_iff, fun _ => unchanged_of_refused,
    fun _ => erases_iff hg.wellFormed, fun _ _ => erases_of_eraseSymbol,
    fun _ _ _ => build_eq_none_iff, fun _ _ _ _ => build_eq_some_iff⟩

/-- In the sample, `b` cannot be erased, as `S → a b` uses it. A chain that goes on with the
terminal `a` stops there, and the labelled alternative before it stays. -/
theorem refusal_exact_sample :
    let start : Symbol := ⟨⟨1⟩, 0⟩
    let a : Symbol := ⟨⟨1⟩, 1⟩
    let b : Symbol := ⟨⟨1⟩, 2⟩
    let steps : List ChainStep := [.label "more", .alternative [b], .rule a, .alternative [b]]
    (¬∃ g', sample.eraseSymbol b = .ok (some g')) ∧
      sample.InUse b (.symbolInUse "b" "S #3") ∧
      (Edit.apply sample (.eraseSymbol b)).1 = sample ∧
      ∃ g' before step after e, .rule start :: steps = before ++ step :: after ∧
        GrantsAll [] sample before g' ∧ Refuses before g' step e ∧
        g'.productions.map (·.label) = ["S #1", "S #2", "S #3", "more"] := by
  intro start a b steps
  obtain ⟨hrefused, -, hunchanged, herases, -, -, hstops⟩ := refusal_exact reachable_sample
  have hreply : (Edit.apply sample (.eraseSymbol b)).2 = .refused (.symbolInUse "b" "S #3") := by
    decide +kernel
  refine ⟨?_, ((hrefused _ _).mp hreply).2, hunchanged _ (fun _ _ => by simp) ?_, ?_⟩
  · rw [herases b (by decide +kernel)]
    decide +kernel
  · rw [hreply]
    exact .refused _
  · have hbuild : sample.build start steps =
        ((sample.build start steps).1, some (.notANonterminal "a")) := by
      decide +kernel
    obtain ⟨before, step, after, hsplit, hbefore, hstep⟩ := (hstops _ _ _ _).mp hbuild
    exact ⟨_, before, step, after, _, hsplit, hbefore, hstep, by decide +kernel⟩

end TopDown.Grammar
