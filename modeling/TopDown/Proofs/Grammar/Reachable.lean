import TopDown.Grammar.Clone
import TopDown.Grammar.Description
import TopDown.Grammar.Edit
import TopDown.Proofs.Analysis.Exactness
import TopDown.Proofs.Elimination.Steps
import TopDown.Proofs.Factoring.Steps

/-!
# Reachable grammars

`Grammar.Reachable` is every grammar that edits, clones, descriptions and transformations lead
to, in any order, refused edits and failed transformations included.

* `WellFormed.apply`, `WellFormed.clone`, `wellFormed_of_ofDescription`,
  `WellFormed.eliminateLeftRecursion` and `WellFormed.leftFactor` are the steps.
* `Reachable.wellFormed`: every reachable grammar is well-formed.
* `isScoped_of_admits`, `WellFormed.isScoped`: the analyses see the rules of a well-formed grammar
  as they are.
-/

namespace TopDown.Grammar

open Transform

variable {g g' : Grammar}

theorem bind_eq_ok_iff {α β : Type} {x : Except Error α} {f : α → Except Error β} {b : β} :
    x >>= f = .ok b ↔ ∃ a, x = .ok a ∧ f a = .ok b := by
  cases x with
  | ok a =>
      constructor
      · exact fun h => ⟨a, rfl, h⟩
      · rintro ⟨_, ⟨⟩, h⟩
        exact h
  | error _ =>
      refine iff_of_false (fun h => ?_) ?_
      · cases h
      · rintro ⟨_, h, -⟩
        cases h

theorem of_bind_eq_ok {α β : Type} {x : Except Error α} {f : α → Except Error β} {b : β}
    (h : x >>= f = .ok b) : ∃ a, x = .ok a ∧ f a = .ok b :=
  bind_eq_ok_iff.mp h

namespace WellFormed

/-! ## Edits -/

theorem runChain (h : g.WellFormed) (lhs : Symbol) (pending : Option String)
    (steps : List ChainStep) : (g.runChain lhs pending steps).1.WellFormed := by
  induction steps generalizing g lhs pending with
  | nil => exact h
  | cons step steps ih =>
      cases step with
      | rule lhs' =>
          unfold Grammar.runChain
          split
          · exact h
          · exact ih h lhs' none
      | label label => exact ih h lhs (some label)
      | alternative rhs =>
          unfold Grammar.runChain
          split
          · exact h
          · rename_i hok
            exact ih (h.addProduction hok) lhs none

theorem settle (h : g.WellFormed) {x : Except Error Grammar}
    (hx : ∀ g', x = .ok g' → g'.WellFormed) : (Edit.settle g x).1.WellFormed := by
  cases x with
  | ok g' => exact hx g' rfl
  | error _ => exact h

theorem apply (h : g.WellFormed) (edit : Edit) : (edit.apply g).1.WellFormed := by
  cases edit with
  | addSymbol kind name => exact h.addSymbol kind name
  | addSymbols kind names => exact h.addSymbols kind names
  | renameSymbol s name => exact h.settle fun _ => h.renameSymbol
  | eraseSymbol s =>
      rw [Edit.apply]
      split
      · rename_i hok
        exact h.eraseSymbol hok
      · exact h
      · exact h
  | setStart s => exact h.settle fun _ => h.setStart
  | clearStart => exact h.clearStart
  | addProduction label lhs rhs =>
      rw [Edit.apply]
      split
      · rename_i hok
        exact h.addProduction hok
      · exact h
  | build lhs steps =>
      have hbuild : (g.build lhs steps).1.WellFormed := h.runChain lhs none _
      rw [Edit.apply]
      split
      · rename_i heq
        rw [heq] at hbuild
        exact hbuild
      · rename_i heq
        rw [heq] at hbuild
        exact hbuild
  | eraseProduction id =>
      rw [Edit.apply]
      split
      · rename_i hsome
        exact h.eraseProduction? hsome
      · exact h
  | setLhs id lhs => exact h.settle fun _ => h.setLhs
  | setRhs id rhs => exact h.settle fun _ => h.setRhs
  | setLabel id label => exact h.settle fun _ => h.setLabel
  | replaceProductions drafts => exact h.settle fun _ => h.replaceProductions

/-! ## Clones -/

theorem lookup?_clone {id : Identity} {s : Symbol} (hs : g.symbols.contains s = true) :
    (g.clone id).symbols.lookup? (s.rebind id) = g.symbols.lookup? s := by
  unfold SymbolTable.lookup?
  rw [if_pos (SymbolTable.lt_of_contains hs).1]
  exact if_pos rfl

theorem kind?_clone {id : Identity} {s : Symbol} (hs : g.symbols.contains s = true) :
    (g.clone id).symbols.kind? (s.rebind id) = g.symbols.kind? s :=
  congrArg (Option.map _) (lookup?_clone hs)

theorem clone (h : g.WellFormed) (id : Identity) : (g.clone id).WellFormed := by
  refine ⟨?_, ?_, ?_, ?_⟩
  · intro p hp
    obtain ⟨q, hq, rfl⟩ := List.mem_map.mp hp
    obtain ⟨hlhs, hrhs⟩ := h.admits q hq
    refine ⟨(kind?_clone (SymbolTable.contains_of_kind? hlhs)).trans hlhs, fun s hs => ?_⟩
    obtain ⟨t, ht, rfl⟩ := List.mem_map.mp hs
    obtain ⟨kind, ht'⟩ := SymbolTable.contains_iff_kind?.mp (hrhs t ht)
    exact SymbolTable.contains_of_kind? ((kind?_clone (hrhs t ht)).trans ht')
  · intro p hp
    obtain ⟨q, hq, rfl⟩ := List.mem_map.mp hp
    exact ⟨rfl, (h.issued q hq).2⟩
  · have hids : (g.clone id).productions.map (·.id) =
        (g.productions.map (·.id)).map (·.rebind id) := by
      show List.map _ (List.map _ _) = _
      rw [List.map_map, List.map_map]
      rfl
    rw [hids]
    refine h.distinct.map_on ?_
    intro i hi j hj heq
    obtain ⟨p, hp, rfl⟩ := List.mem_map.mp hi
    obtain ⟨q, hq, rfl⟩ := List.mem_map.mp hj
    have howner : p.id.owner = q.id.owner := (h.issued p hp).1.trans (h.issued q hq).1.symm
    -- All IDs of the grammar have one owner, so the way back is the same for each.
    have hback : ∀ i : Production.Id, (i.rebind id).rebind i.owner = i := fun _ => rfl
    have hrebind : p.id.rebind id = q.id.rebind id := heq
    rw [← hback p.id, ← hback q.id, hrebind, howner]
  · intro s hs
    obtain ⟨t, ht, rfl⟩ := Option.map_eq_some_iff.mp hs
    have htk := h.start t ht
    exact (kind?_clone (SymbolTable.contains_of_kind? htk)).trans htk

/-! ## Descriptions -/

theorem declare {kind : Symbol.Kind} {names : List String} (h : g.WellFormed)
    (hok : g.declare kind names = .ok g') : g'.WellFormed := by
  induction names generalizing g with
  | nil =>
      cases hok
      exact h
  | cons name names ih =>
      unfold Grammar.declare at hok
      split at hok
      · cases hok
      · exact ih (h.addSymbol kind name) hok

theorem addClause {clause : Description.Clause} (h : g.WellFormed)
    (hok : g.addClause clause = .ok g') : g'.WellFormed := by
  unfold Grammar.addClause at hok
  obtain ⟨lhs, -, hok⟩ := of_bind_eq_ok hok
  obtain ⟨rhs, -, hok⟩ := of_bind_eq_ok hok
  obtain ⟨⟨id, g''⟩, hadd, hok⟩ := of_bind_eq_ok hok
  cases hok
  exact h.addProduction hadd

theorem addClauses {clauses : List Description.Clause} (h : g.WellFormed)
    (hok : clauses.foldlM Grammar.addClause g = .ok g') : g'.WellFormed := by
  induction clauses generalizing g with
  | nil =>
      cases hok
      exact h
  | cons clause clauses ih =>
      rw [List.foldlM_cons] at hok
      obtain ⟨g'', hadd, hok⟩ := of_bind_eq_ok hok
      exact ih (h.addClause hadd) hok

end WellFormed

theorem wellFormed_of_ofDescription {id : Identity} {d : Description}
    (hok : ofDescription id d = .ok g) : g.WellFormed := by
  unfold ofDescription at hok
  obtain ⟨g₁, hterminals, hok⟩ := of_bind_eq_ok hok
  obtain ⟨g₂, hnonterminals, hok⟩ := of_bind_eq_ok hok
  obtain ⟨g₃, hclauses, hok⟩ := of_bind_eq_ok hok
  have h₃ : g₃.WellFormed :=
    (((wellFormed_empty id).declare hterminals).declare hnonterminals).addClauses hclauses
  split at hok
  · cases hok
    exact h₃
  · unfold setStartByName at hok
    obtain ⟨start, -, hok⟩ := of_bind_eq_ok hok
    exact h₃.setStart hok

/-! ## Transformations -/

theorem WellFormed.eliminateLeftRecursion (h : g.WellFormed) (options : Options) :
    (g.eliminateLeftRecursion options).grammar.WellFormed := by
  unfold Grammar.eliminateLeftRecursion
  split
  · exact h
  · split
    · exact h
    · unfold Elimination.run
      dsimp only
      have hrun := Elimination.tracks_treatAll options
        (g.system.vanishingCorners g.system.nullable)
        (Progress.Tracks.start h
          (#[.ofClosure g.system] ++
            #[.ofClosure g.system, .eliminating g.symbols.nonterminals.length]))
        [] g.symbols.nonterminals
      split
      · rename_i failure hfail
        rw [hfail] at hrun
        exact Failure.wellFormed_abort (Progress.Tracks.wellFormed hrun h)
      · rename_i p hok
        rw [hok] at hrun
        have hp := Progress.Tracks.wellFormed hrun h
        unfold Elimination.conclude
        dsimp only
        split
        · split
          · exact Failure.wellFormed_abort hp
          · exact Progress.wellFormed_commit hp
        · exact Progress.wellFormed_commit hp

theorem WellFormed.leftFactor (h : g.WellFormed) (options : Options) :
    (g.leftFactor options).grammar.WellFormed := by
  have hrun := Factoring.tracks_factorAll options
    (Progress.Tracks.start h #[]) g.symbols.nonterminals
  unfold Grammar.leftFactor
  split
  · rename_i failure hfail
    rw [hfail] at hrun
    exact Failure.wellFormed_abort (Progress.Tracks.wellFormed hrun h)
  · rename_i p hok
    rw [hok] at hrun
    exact Progress.wellFormed_commit (Progress.Tracks.wellFormed hrun h)

/-! ## Reachability -/

/-- The grammars that can come about. -/
inductive Reachable : Grammar → Prop
  | empty (id : Identity) : Reachable (empty id)
  | described {id : Identity} {d : Description} {g : Grammar} (hok : ofDescription id d = .ok g) :
      Reachable g
  | edited {g : Grammar} (h : Reachable g) (edit : Edit) : Reachable (edit.apply g).1
  | cloned {g : Grammar} (h : Reachable g) (id : Identity) : Reachable (g.clone id)
  | eliminated {g : Grammar} (h : Reachable g) (options : Options) :
      Reachable (g.eliminateLeftRecursion options).grammar
  | factored {g : Grammar} (h : Reachable g) (options : Options) :
      Reachable (g.leftFactor options).grammar

/-- **Reachable grammars are well-formed.** -/
theorem Reachable.wellFormed (h : Reachable g) : g.WellFormed := by
  induction h with
  | empty id => exact wellFormed_empty id
  | described hok => exact wellFormed_of_ofDescription hok
  | edited _ edit ih => exact ih.apply edit
  | cloned _ id ih => exact ih.clone id
  | eliminated _ options ih => exact ih.eliminateLeftRecursion options
  | factored _ options ih => exact ih.leftFactor options

theorem Reachable.applyAll (h : Reachable g) (edits : List Edit) :
    Reachable (Edit.applyAll g edits).1 := by
  induction edits generalizing g with
  | nil => exact h
  | cons edit edits ih => exact ih (h.edited edit)

/-- The grammar `S → S a | a | a b` with start symbol `S`. -/
def sample : Grammar :=
  let start : Symbol := ⟨⟨1⟩, 0⟩
  let a : Symbol := ⟨⟨1⟩, 1⟩
  let b : Symbol := ⟨⟨1⟩, 2⟩
  (Edit.applyAll (.empty ⟨1⟩)
    [.addSymbol .nonterminal "S", .addSymbols .terminal ["a", "b"], .setStart start,
      .build start [.alternative [start, a], .alternative [a], .alternative [a, b]]]).1

theorem reachable_sample : sample.Reachable := (Reachable.empty ⟨1⟩).applyAll _

/-- Left-factoring the sample takes one helper. -/
theorem leftFactor_sample : (sample.leftFactor {}).result = .ok [⟨⟨1⟩, 3⟩] :=
  Transform.Factoring.leftFactor_of_within (n := 4) (f := (·.result)) (by decide +kernel)

/-! ## The analyses see a well-formed grammar as it is -/

theorem isScoped_of_admits {rules : List Rule} (h : ∀ r ∈ rules, g.Admits r) :
    RuleSystem.isScoped ⟨g.id, g.symbols.size, rules⟩ = true := by
  have hspans : ∀ s, g.symbols.contains s = true →
      RuleSystem.spans ⟨g.id, g.symbols.size, rules⟩ s = true := by
    intro s hs
    obtain ⟨howner, hindex⟩ := SymbolTable.lt_of_contains hs
    rw [RuleSystem.spans, Bool.and_eq_true, decide_eq_true_eq, decide_eq_true_eq]
    exact ⟨howner, hindex⟩
  refine RuleSystem.isScoped_iff.mpr fun r hr => ?_
  obtain ⟨hlhs, hrhs⟩ := h r hr
  exact ⟨hspans _ (SymbolTable.contains_of_kind? hlhs), fun s hs => hspans s (hrhs s hs)⟩

theorem WellFormed.isScoped (h : g.WellFormed) : g.system.isScoped = true :=
  isScoped_of_admits (List.forall_mem_map.mpr h.admits)

end TopDown.Grammar
