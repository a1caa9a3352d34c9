import Mathlib.Logic.Equiv.Basic
import TopDown.Grammar.Clone
import TopDown.Grammar.Edit
import TopDown.Proofs.Isomorphism.Isomorphic

/-!
# Grammars under other identities

A translation puts other identities and other handles in the place of given ones. Along a
permutation of identities, every handle keeps its number and changes its owner; a grammar that is
translated that way serves the translated edit as the grammar itself serves the edit, whatever the
handles are, and refuses it for the translated cause.

* `Translation` acts on all data that mention handles: `Translation.edit`, `Translation.reply`,
  `Translation.grammar` and so on.
* `Translation.along` is the translation along a permutation of identities.
* `lookup?_along`, `symbolFault?_along`, `draftsFault?_along`: tables and checks do not depend on
  identities.
* `apply_along`: neither do edits.
-/

namespace TopDown

/-- Puts other identities and other handles in the place of given ones. -/
structure Translation where
  owner : Identity → Identity
  symbol : Symbol → Symbol
  id : Production.Id → Production.Id

namespace Translation

open Grammar

/-! ## What is translated -/

section Action

variable (t : Translation)

def rule (r : Rule) : Rule := r.rename t.symbol

def production (p : Production) : Production where
  lhs := t.symbol p.lhs
  rhs := p.rhs.map t.symbol
  id := t.id p.id
  label := p.label

def draft (d : Draft) : Draft where
  lhs := t.symbol d.lhs
  rhs := d.rhs.map t.symbol
  origin := d.origin.map t.id
  label := d.label

def table (table : SymbolTable) : SymbolTable := table.fork (t.owner table.id)

def grammar (g : Grammar) : Grammar where
  symbols := t.table g.symbols
  productions := g.productions.map t.production
  start := g.start.map t.symbol
  nextSerial := g.nextSerial

theorem symbols_grammar (g : Grammar) : (t.grammar g).symbols = t.table g.symbols := rfl

theorem productions_grammar (g : Grammar) :
    (t.grammar g).productions = g.productions.map t.production := rfl

def step : ChainStep → ChainStep
  | .rule lhs => .rule (t.symbol lhs)
  | .label label => .label label
  | .alternative rhs => .alternative (rhs.map t.symbol)

def edit : Edit → Edit
  | .addSymbol kind name => .addSymbol kind name
  | .addSymbols kind names => .addSymbols kind names
  | .renameSymbol s name => .renameSymbol (t.symbol s) name
  | .eraseSymbol s => .eraseSymbol (t.symbol s)
  | .setStart s => .setStart (t.symbol s)
  | .clearStart => .clearStart
  | .addProduction label lhs rhs => .addProduction label (t.symbol lhs) (rhs.map t.symbol)
  | .build lhs steps => .build (t.symbol lhs) (steps.map t.step)
  | .eraseProduction i => .eraseProduction (t.id i)
  | .setLhs i lhs => .setLhs (t.id i) (t.symbol lhs)
  | .setRhs i rhs => .setRhs (t.id i) (rhs.map t.symbol)
  | .setLabel i label => .setLabel (t.id i) label
  | .replaceProductions drafts => .replaceProductions (drafts.map t.draft)

/-- The handles inside a cause of refusal are replaced; the names are not. -/
def error : Error → Error
  | .foreignSymbol s => .foreignSymbol (t.symbol s)
  | .removedSymbol s => .removedSymbol (t.symbol s)
  | .notANonterminal name => .notANonterminal name
  | .symbolInUse name production => .symbolInUse name production
  | .startSymbolInUse name => .startSymbolInUse name
  | .unknownProduction i => .unknownProduction (t.id i)
  | .duplicateProduction i => .duplicateProduction (t.id i)
  | .duplicateName name => .duplicateName name
  | .undefinedName name => .undefinedName name

def reply : Reply → Reply
  | .done => .done
  | .erased found => .erased found
  | .symbol s => .symbol (t.symbol s)
  | .symbols issued => .symbols (issued.map t.symbol)
  | .production i => .production (t.id i)
  | .refused cause => .refused (t.error cause)

end Action

/-- Every handle keeps its number and goes to another owner. -/
def along (σ : Equiv.Perm Identity) : Translation where
  owner := σ
  symbol := fun s => s.rebind (σ s.owner)
  id := fun i => i.rebind (σ i.owner)

variable {σ : Equiv.Perm Identity} {g : Grammar} {s s' : Symbol} {i i' : Production.Id}

theorem symbol_along_injective : Function.Injective (along σ).symbol := by
  intro s s' heq
  obtain ⟨howner, hindex⟩ := Symbol.mk.inj heq
  exact congrArg₂ Symbol.mk (σ.injective howner) hindex

theorem id_along_injective : Function.Injective (along σ).id := by
  intro i i' heq
  obtain ⟨howner, hserial⟩ := Production.Id.mk.inj heq
  exact congrArg₂ Production.Id.mk (σ.injective howner) hserial

/-! ## Tables -/

section Table

variable {table : SymbolTable} {kind : Symbol.Kind} {name : String}

theorem lookup?_along : ((along σ).table table).lookup? ((along σ).symbol s) = table.lookup? s := by
  have howner : (((along σ).symbol s).owner = ((along σ).table table).id) =
      (s.owner = table.id) := propext σ.injective.eq_iff
  unfold SymbolTable.lookup?
  simp only [howner]
  rfl

theorem contains_along :
    ((along σ).table table).contains ((along σ).symbol s) = table.contains s :=
  congrArg Option.isSome lookup?_along

theorem kind?_along : ((along σ).table table).kind? ((along σ).symbol s) = table.kind? s :=
  congrArg (Option.map _) lookup?_along

theorem name?_along : ((along σ).table table).name? ((along σ).symbol s) = table.name? s :=
  congrArg (Option.map _) lookup?_along

theorem issued_along : ((along σ).table table).issued ((along σ).symbol s) = table.issued s := by
  have howner : (σ s.owner = σ table.id) = (s.owner = table.id) := propext σ.injective.eq_iff
  show (decide (σ s.owner = σ table.id) && _) = _
  simp only [howner]
  rfl

theorem addAll_along {names : List String} :
    ((along σ).table table).addAll kind names =
      ((table.addAll kind names).1.map (along σ).symbol,
        (along σ).table (table.addAll kind names).2) := by
  induction names generalizing table with
  | nil => rfl
  | cons name names ih =>
      have hrest := @ih (table.add kind name).2
      exact congrArg (fun p => ((along σ).symbol (table.add kind name).1 :: p.1, p.2)) hrest

theorem rename?_along :
    ((along σ).table table).rename? ((along σ).symbol s) name =
      (table.rename? s name).map (along σ).table := by
  unfold SymbolTable.rename?
  rw [lookup?_along, Option.map_map]
  rfl

theorem erase?_along :
    ((along σ).table table).erase? ((along σ).symbol s) =
      (table.erase? s).map (along σ).table := by
  unfold SymbolTable.erase?
  rw [lookup?_along, Option.map_map]
  rfl

end Table

/-! ## Faults -/

theorem displayName_along (hs : g.symbols.contains s = true) :
    ((along σ).grammar g).displayName ((along σ).symbol s) = g.displayName s := by
  rw [displayName, symbols_grammar, name?_along, name?_eq_some_displayName hs]
  rfl

theorem symbolFault?_along :
    ((along σ).grammar g).symbolFault? ((along σ).symbol s) =
      (g.symbolFault? s).map (along σ).error := by
  rw [symbolFault?, symbolFault?, symbols_grammar, contains_along, issued_along]
  split
  · rfl
  · split <;> rfl

theorem nonterminalFault?_along :
    ((along σ).grammar g).nonterminalFault? ((along σ).symbol s) =
      (g.nonterminalFault? s).map (along σ).error := by
  rw [nonterminalFault?, nonterminalFault?, symbols_grammar, kind?_along]
  split
  · rfl
  · rename_i hterminal
    rw [displayName_along (SymbolTable.contains_of_kind? hterminal)]
    rfl
  · exact symbolFault?_along

theorem rhsFault?_along {rhs : List Symbol} :
    ((along σ).grammar g).rhsFault? (rhs.map (along σ).symbol) =
      (g.rhsFault? rhs).map (along σ).error := by
  rw [rhsFault?, rhsFault?, List.findSome?_map, List.map_findSome?]
  exact congrArg (rhs.findSome? ·) (funext fun _ => symbolFault?_along)

theorem ruleFault?_along {r : Rule} :
    ((along σ).grammar g).ruleFault? ((along σ).rule r) =
      (g.ruleFault? r).map (along σ).error := by
  simp only [ruleFault?, Option.orElse_eq_orElse, Option.orElse_eq_or, Option.map_or,
    ← nonterminalFault?_along, ← rhsFault?_along]
  rfl

theorem production?_along :
    ((along σ).grammar g).production? ((along σ).id i) =
      (g.production? i).map (along σ).production := by
  rw [production?, production?, productions_grammar, List.find?_map]
  have htest : ((fun p : Production => decide (p.id = (along σ).id i)) ∘ (along σ).production) =
      fun p => decide (p.id = i) :=
    funext fun _ => decide_eq_decide.mpr id_along_injective.eq_iff
  rw [htest]

theorem productionFault?_along :
    ((along σ).grammar g).productionFault? ((along σ).id i) =
      (g.productionFault? i).map (along σ).error := by
  rw [productionFault?, productionFault?, production?_along, Option.isSome_map]
  split <;> rfl

theorem mentions_along {p : Production} :
    mentions ((along σ).symbol s) ((along σ).production p) = mentions s p := by
  have hlhs : ((along σ).symbol p.lhs = (along σ).symbol s) = (p.lhs = s) :=
    propext symbol_along_injective.eq_iff
  have hrhs : (p.rhs.map (along σ).symbol).contains ((along σ).symbol s) = p.rhs.contains s := by
    rw [Bool.eq_iff_iff, List.contains_iff_mem, List.contains_iff_mem,
      List.mem_map_of_injective symbol_along_injective]
  show (decide ((along σ).symbol p.lhs = _) || _) = _
  rw [mentions, production, hrhs]
  simp only [hlhs]

theorem eraseFault?_along (hs : g.symbols.contains s = true) :
    ((along σ).grammar g).eraseFault? ((along σ).symbol s) =
      (g.eraseFault? s).map (along σ).error := by
  have hfind : ((along σ).grammar g).productions.find? (mentions ((along σ).symbol s)) =
      (g.productions.find? (mentions s)).map (along σ).production := by
    rw [productions_grammar, List.find?_map]
    exact congrArg (fun p => (g.productions.find? p).map _) (funext fun _ => mentions_along)
  have hstart : (((along σ).grammar g).start = some ((along σ).symbol s)) =
      (g.start = some s) := by
    rw [grammar, ← Option.map_some, (Option.map_injective symbol_along_injective).eq_iff]
  rw [eraseFault?, eraseFault?, hfind, displayName_along hs]
  cases g.productions.find? (mentions s) with
  | some p => rfl
  | none =>
      simp only [Option.map_none, hstart]
      split <;> rfl

theorem draftFault?_along {kept : List Production.Id} {d : Draft} :
    ((along σ).grammar g).draftFault? (kept.map (along σ).id) ((along σ).draft d) =
      (g.draftFault? kept d).map (along σ).error := by
  simp only [draftFault?, Option.orElse_eq_orElse, Option.orElse_eq_or, Option.map_or,
    ← ruleFault?_along]
  congr 1
  rw [draft]
  cases d.origin with
  | none => rfl
  | some i =>
      simp only [Option.map_some, Option.map_or, ← productionFault?_along,
        List.mem_map_of_injective id_along_injective]
      split <;> rfl

theorem draftsFault?_along {kept : List Production.Id} {drafts : List Draft} :
    ((along σ).grammar g).draftsFault? (kept.map (along σ).id) (drafts.map (along σ).draft) =
      (g.draftsFault? kept drafts).map (along σ).error := by
  induction drafts generalizing kept with
  | nil => rfl
  | cons d drafts ih =>
      have hkept : ((along σ).draft d).origin.toList ++ kept.map (along σ).id =
          (d.origin.toList ++ kept).map (along σ).id := by
        rw [List.map_append, draft]
        cases d.origin <;> rfl
      simp only [List.map_cons, draftsFault?, Option.orElse_eq_orElse, Option.orElse_eq_or,
        Option.map_or, draftFault?_along, hkept, ih]

/-! ## Edits -/

theorem numbered_along {owner : Identity} {serial : Nat} {drafts : List Draft} :
    numbered (σ owner) serial (drafts.map (along σ).draft) =
      (numbered owner serial drafts).map (along σ).production := by
  induction drafts generalizing serial with
  | nil => rfl
  | cons d drafts ih =>
      rw [List.map_cons, numbered, numbered, draft]
      cases d.origin with
      | none => exact congrArg (_ :: ·) ih
      | some i => exact congrArg (_ :: ·) ih

theorem mapProduction_along {f f' : Production → Production}
    (hf : ∀ p, f' ((along σ).production p) = (along σ).production (f p)) :
    ((along σ).grammar g).mapProduction ((along σ).id i) f' =
      (along σ).grammar (g.mapProduction i f) := by
  have hproductions : (g.productions.map (along σ).production).map
        (fun p => if p.id = (along σ).id i then f' p else p) =
      (g.productions.map fun p => if p.id = i then f p else p).map (along σ).production := by
    rw [List.map_map, List.map_map]
    refine List.map_congr_left fun p _ => ?_
    have hid : (((along σ).production p).id = (along σ).id i) = (p.id = i) :=
      propext id_along_injective.eq_iff
    simp only [Function.comp_apply, hid, hf]
    split <;> rfl
  rw [mapProduction, mapProduction, grammar, grammar, hproductions]

/-- A request that is granted or refused alike has the same outcome. -/
theorem settle_along {fault? fault?' : Option Error} {g' h' : Grammar}
    (hfault : fault?' = fault?.map (along σ).error) (hg : h' = (along σ).grammar g') :
    Edit.settle ((along σ).grammar g) (grant fault?' h') =
      ((along σ).grammar (Edit.settle g (grant fault? g')).1,
        (along σ).reply (Edit.settle g (grant fault? g')).2) := by
  subst hfault hg
  cases fault? <;> rfl

theorem addProduction_along {label label' : String} {lhs : Symbol} {rhs : List Symbol}
    (hlabel : g.ruleFault? ⟨lhs, rhs⟩ = none → label' = label) :
    ((along σ).grammar g).addProduction label' ((along σ).symbol lhs) (rhs.map (along σ).symbol) =
      match g.addProduction label lhs rhs with
      | .ok (i, g') => .ok ((along σ).id i, (along σ).grammar g')
      | .error cause => .error ((along σ).error cause) := by
  have hfault : ((along σ).grammar g).ruleFault?
      ⟨(along σ).symbol lhs, rhs.map (along σ).symbol⟩ =
        (g.ruleFault? ⟨lhs, rhs⟩).map (along σ).error := ruleFault?_along (r := ⟨lhs, rhs⟩)
  rw [addProduction, addProduction, hfault]
  cases hnone : g.ruleFault? ⟨lhs, rhs⟩ with
  | some fault => rfl
  | none =>
      rw [hlabel hnone]
      simp only [Option.map_none, grant, grammar, List.map_append]
      rfl

theorem defaultLabel_along (hs : g.symbols.contains s = true) :
    ((along σ).grammar g).defaultLabel ((along σ).symbol s) = g.defaultLabel s := by
  have hcount : (((along σ).grammar g).productionsOf ((along σ).symbol s)).length =
      (g.productionsOf s).length := by
    rw [productionsOf, productionsOf, productions_grammar, List.filter_map, List.length_map]
    refine congrArg (fun p => (g.productions.filter p).length) (funext fun p => ?_)
    exact decide_eq_decide.mpr symbol_along_injective.eq_iff
  rw [defaultLabel, defaultLabel, displayName_along hs, hcount]

theorem runChain_along {lhs : Symbol} {pending : Option String} {steps : List ChainStep} :
    ((along σ).grammar g).runChain ((along σ).symbol lhs) pending (steps.map (along σ).step) =
      ((along σ).grammar (g.runChain lhs pending steps).1,
        (g.runChain lhs pending steps).2.map (along σ).error) := by
  induction steps generalizing g lhs pending with
  | nil => rfl
  | cons step steps ih =>
      cases step with
      | rule lhs' =>
          rw [List.map_cons, Translation.step, runChain, runChain, nonterminalFault?_along]
          cases g.nonterminalFault? lhs' with
          | some fault => rfl
          | none => exact ih
      | label label =>
          rw [List.map_cons, Translation.step, runChain, runChain]
          exact ih
      | alternative rhs =>
          -- The default label shows the left-hand side, which is live if the rule has no fault.
          have hlabel : g.ruleFault? ⟨lhs, rhs⟩ = none →
              pending.getD (((along σ).grammar g).defaultLabel ((along σ).symbol lhs)) =
                pending.getD (g.defaultLabel lhs) := by
            intro hnone
            have hlive := SymbolTable.contains_of_kind? (ruleFault?_eq_none_iff.mp hnone).1
            rw [defaultLabel_along hlive]
          rw [List.map_cons, Translation.step, runChain, runChain, addProduction_along hlabel]
          cases g.addProduction (pending.getD (g.defaultLabel lhs)) lhs rhs with
          | error fault => rfl
          | ok issued => exact ih

/-- **Edits do not depend on identities.** A grammar under other identities serves the translated
edit as the grammar itself serves the edit. -/
theorem apply_along (g : Grammar) (e : Edit) :
    ((along σ).edit e).apply ((along σ).grammar g) =
      ((along σ).grammar (e.apply g).1, (along σ).reply (e.apply g).2) := by
  cases e with
  | addSymbol kind name => rfl
  | addSymbols kind names =>
      have hadd := @addAll_along σ g.symbols kind names
      exact congrArg (fun p => ({ (along σ).grammar g with symbols := p.2 }, Reply.symbols p.1))
        hadd
  | renameSymbol s name =>
      refine settle_along symbolFault?_along ?_
      rw [symbols_grammar, rename?_along]
      cases g.symbols.rename? s name <;> rfl
  | eraseSymbol s =>
      rw [edit, Edit.apply, Edit.apply, eraseSymbol, eraseSymbol, symbols_grammar, erase?_along]
      cases hsome : g.symbols.erase? s with
      | none => rfl
      | some table =>
          have hlive : g.symbols.contains s = true := by
            obtain ⟨entry, hentry, -⟩ := Option.map_eq_some_iff.mp hsome
            exact Option.isSome_iff_exists.mpr ⟨entry, hentry⟩
          simp only [Option.map_some, eraseFault?_along hlive]
          cases g.eraseFault? s <;> rfl
  | setStart s => exact settle_along nonterminalFault?_along rfl
  | clearStart => rfl
  | addProduction label lhs rhs =>
      rw [edit, Edit.apply, Edit.apply, addProduction_along fun _ => rfl]
      cases g.addProduction label lhs rhs <;> rfl
  | build lhs steps =>
      have hchain : ((along σ).grammar g).build ((along σ).symbol lhs)
          (steps.map (along σ).step) = _ :=
        @runChain_along σ g lhs none (.rule lhs :: steps)
      rw [edit, Edit.apply, Edit.apply, hchain, build]
      cases g.runChain lhs none (.rule lhs :: steps) with
      | mk g' fault? => cases fault? <;> rfl
  | eraseProduction i =>
      have hrest : ((along σ).grammar g).productions.eraseP (·.id = (along σ).id i) =
          (g.productions.eraseP (·.id = i)).map (along σ).production := by
        rw [productions_grammar, List.eraseP_map]
        refine congrArg (fun p => (g.productions.eraseP p).map _) (funext fun p => ?_)
        exact decide_eq_decide.mpr id_along_injective.eq_iff
      rw [edit, Edit.apply, Edit.apply, eraseProduction?, eraseProduction?, production?_along,
        hrest]
      cases g.production? i <;> rfl
  | setLhs i lhs =>
      refine settle_along ?_ (mapProduction_along fun _ => rfl)
      simp only [Option.orElse_eq_orElse, Option.orElse_eq_or, Option.map_or,
        nonterminalFault?_along, productionFault?_along]
  | setRhs i rhs =>
      refine settle_along ?_ (mapProduction_along fun _ => rfl)
      simp only [Option.orElse_eq_orElse, Option.orElse_eq_or, Option.map_or, rhsFault?_along,
        productionFault?_along]
  | setLabel i label =>
      exact settle_along productionFault?_along (mapProduction_along fun _ => rfl)
  | replaceProductions drafts =>
      refine settle_along (@draftsFault?_along σ g [] drafts) ?_
      have hnumbered : numbered ((along σ).grammar g).id g.nextSerial
          (drafts.map (along σ).draft) = _ := @numbered_along σ g.id g.nextSerial drafts
      have hcount : (drafts.map (along σ).draft).countP (·.origin.isNone) =
          drafts.countP (·.origin.isNone) := by
        rw [List.countP_map]
        exact congrArg (drafts.countP ·) (funext fun d : Draft => Option.isNone_map)
      rw [hcount]
      exact congrArg (fun ps => { (along σ).grammar g with
        productions := ps
        nextSerial := g.nextSerial + drafts.countP fun d : Draft => d.origin.isNone }) hnumbered

end Translation

end TopDown
