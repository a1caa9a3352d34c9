import TopDown.Proofs.Analysis.Propagation
import TopDown.Proofs.Cloning.Operations
import TopDown.Proofs.Cloning.Translation
import TopDown.Proofs.Isomorphism.Copies

/-!
# Answers under other identities

A well-formed grammar under other identities is its clone under one of them, and answers the
translated question with the translated answer. Words in an answer are the same; so are names, even
where two symbols share one.

* `grammar_along_eq_clone`: translating a grammar along a permutation is cloning it.
* `query_along`: the answers correspond.
-/

namespace TopDown

namespace Translation

open Grammar

/-! ## What is translated -/

section Action

variable (t : Translation)

def piece : Piece → Piece
  | .word text => .word text
  | .handle s => .handle (t.symbol s)

def index (index : ProductionIndex) : ProductionIndex :=
  ⟨index.entries.map fun entry => (t.symbol entry.1, entry.2.map t.id)⟩

def system (system : RuleSystem) : RuleSystem where
  owner := t.owner system.owner
  size := system.size
  rules := system.rules.map t.rule

def set (set : SymbolSet) : SymbolSet := { set with owner := t.owner set.owner }

def query : Query → Query
  | .id => .id
  | .table => .table
  | .size => .size
  | .liveCount => .liveCount
  | .symbols => .symbols
  | .ofKind kind => .ofKind kind
  | .contains s => .contains (t.symbol s)
  | .issued s => .issued (t.symbol s)
  | .kindOf s => .kindOf (t.symbol s)
  | .isOfKind kind s => .isOfKind kind (t.symbol s)
  | .nameOf s => .nameOf (t.symbol s)
  | .find name => .find name
  | .isNameTaken name => .isNameTaken name
  | .start => .start
  | .productions => .productions
  | .production i => .production (t.id i)
  | .productionsOf lhs => .productionsOf (t.symbol lhs)
  | .index => .index
  | .system => .system
  | .nullable => .nullable
  | .displayName s => .displayName (t.symbol s)
  | .ruleText r => .ruleText (t.rule r)
  | .text => .text
  | .describe => .describe

/-- The identities and handles in an answer are replaced, and nothing else. -/
def answer : Answer → Answer
  | .owner id => .owner (t.owner id)
  | .table table => .table (t.table table)
  | .number n => .number n
  | .truth holds => .truth holds
  | .kind kind? => .kind kind?
  | .name name? => .name name?
  | .symbol s? => .symbol (s?.map t.symbol)
  | .symbols list => .symbols (list.map t.symbol)
  | .production p? => .production (p?.map t.production)
  | .productions list => .productions (list.map t.production)
  | .index index => .index (t.index index)
  | .system system => .system (t.system system)
  | .set set => .set (t.set set)
  | .pieces pieces => .pieces (pieces.map t.piece)
  | .text text => .text text
  | .description d => .description d

def operation : Operation → Operation
  | .edit e => .edit (t.edit e)
  | .query q => .query (t.query q)

def response : Response → Response
  | .reply r => .reply (t.reply r)
  | .answer a => .answer (t.answer a)

end Action

variable {σ : Equiv.Perm Identity} {g : Grammar} {s : Symbol}

/-! ## Listings -/

theorem symbols_along (table : SymbolTable) :
    ((along σ).table table).symbols = table.symbols.map (along σ).symbol := by
  have hrange : (List.range table.size).map (Symbol.mk (σ table.id)) =
      ((List.range table.size).map (Symbol.mk table.id)).map (along σ).symbol := by
    rw [List.map_map]
    rfl
  have htest : ((along σ).table table).contains ∘ (along σ).symbol = table.contains :=
    funext fun _ => contains_along
  show ((List.range table.size).map (Symbol.mk (σ table.id))).filter _ = _
  rw [hrange, List.filter_map, htest, SymbolTable.symbols]

theorem ofKind_along (table : SymbolTable) (kind : Symbol.Kind) :
    ((along σ).table table).ofKind kind = (table.ofKind kind).map (along σ).symbol := by
  rw [SymbolTable.ofKind, SymbolTable.ofKind, symbols_along, List.filter_map]
  refine congrArg (fun p => (table.symbols.filter p).map _) (funext fun s => ?_)
  exact congrArg (· == some kind) kind?_along

theorem find?_along (table : SymbolTable) (name : String) :
    ((along σ).table table).find? name = (table.find? name).map (along σ).symbol := by
  rw [SymbolTable.find?, SymbolTable.find?, symbols_along, List.find?_map]
  refine congrArg (fun p => (table.symbols.find? p).map _) (funext fun s => ?_)
  exact congrArg (· == some name) name?_along

theorem productionsOf_along :
    ((along σ).grammar g).productionsOf ((along σ).symbol s) =
      (g.productionsOf s).map (along σ).production := by
  rw [productionsOf, productionsOf, productions_grammar, List.filter_map]
  refine congrArg (fun p => (g.productions.filter p).map _) (funext fun p => ?_)
  exact decide_eq_decide.mpr symbol_along_injective.eq_iff

/-! ## Text -/

theorem display_along :
    ((along σ).grammar g).display ((along σ).symbol s) = (along σ).piece (g.display s) := by
  rw [display, display, symbols_grammar, name?_along]
  cases g.symbols.name? s <;> rfl

theorem rulePieces_along (r : Rule) :
    ((along σ).grammar g).rulePieces ((along σ).rule r) =
      (g.rulePieces r).map (along σ).piece := by
  have hrhs : ∀ rhs : List Symbol, ((along σ).grammar g).rhsPieces (rhs.map (along σ).symbol) =
      (g.rhsPieces rhs).map (along σ).piece := by
    intro rhs
    cases rhs with
    | nil => rfl
    | cons s rhs =>
        show ((s :: rhs).map _).flatMap _ = ((s :: rhs).flatMap _).map _
        rw [List.flatMap_map, List.map_flatMap]
        exact congrArg ((s :: rhs).flatMap ·) (funext fun t => by rw [display_along]; rfl)
  rw [rulePieces, rulePieces, List.map_cons, List.map_cons, ← hrhs, ← display_along]
  rfl

/-! ## Well-formed grammars -/

theorem rebind_of_owner {id : Identity} (hs : s.owner = id) :
    (along σ).symbol s = s.rebind (σ id) := by
  rw [← hs]
  rfl

/-- **Translation along a permutation is cloning**, as all handles in a grammar are its own. -/
theorem grammar_along_eq_clone (hg : g.WellFormed) :
    (along σ).grammar g = g.clone (σ g.id) := by
  have hlive : ∀ s, g.symbols.contains s = true → (along σ).symbol s = s.rebind (σ g.id) :=
    fun s hs => rebind_of_owner (SymbolTable.lt_of_contains hs).1
  have hproductions : g.productions.map (along σ).production =
      g.productions.map (·.rebind (σ g.id)) := by
    refine List.map_congr_left fun p hp => ?_
    obtain ⟨hlhs, hrhs⟩ := hg.admits p hp
    have hid : (along σ).id p.id = p.id.rebind (σ g.id) := by
      rw [← (hg.issued p hp).1]
      rfl
    rw [production, Production.rebind, hlive _ (SymbolTable.contains_of_kind? hlhs), hid,
      List.map_congr_left fun s hs => hlive s (hrhs s hs)]
  have hstart : g.start.map (along σ).symbol = g.start.map (·.rebind (σ g.id)) := by
    cases hsome : g.start with
    | none => rfl
    | some s => exact congrArg some (hlive s (SymbolTable.contains_of_kind? (hg.start s hsome)))
  rw [grammar, clone, hproductions, hstart]
  rfl

theorem text_along (hg : g.WellFormed) : ((along σ).grammar g).text = g.text := by
  rw [grammar_along_eq_clone hg]
  exact text_eq (sameNames_clone g _) (isomorphic_clone g _) hg

theorem describe_along (hg : g.WellFormed) : ((along σ).grammar g).describe = g.describe := by
  have hlive : ∀ s, g.symbols.contains s = true →
      ((along σ).grammar g).displayName ((along σ).symbol s) = g.displayName s :=
    fun s hs => displayName_along hs
  have hkind : ∀ kind, (((along σ).grammar g).symbols.ofKind kind).map
      ((along σ).grammar g).displayName = (g.symbols.ofKind kind).map g.displayName := by
    intro kind
    rw [symbols_grammar, ofKind_along, List.map_map]
    refine List.map_congr_left fun s hs => hlive s ?_
    exact SymbolTable.contains_of_kind? (SymbolTable.mem_ofKind_iff.mp hs)
  have hstart : (g.start.map (along σ).symbol).map ((along σ).grammar g).displayName =
      g.start.map g.displayName := by
    cases hsome : g.start with
    | none => rfl
    | some s => exact congrArg some (hlive s (SymbolTable.contains_of_kind? (hg.start s hsome)))
  have hproductions : (g.productions.map (along σ).production).map
      (fun p => (⟨p.label, ((along σ).grammar g).displayName p.lhs,
        p.rhs.map ((along σ).grammar g).displayName⟩ : Description.Clause)) =
      g.productions.map fun p => ⟨p.label, g.displayName p.lhs, p.rhs.map g.displayName⟩ := by
    rw [List.map_map]
    refine List.map_congr_left fun p hp => ?_
    obtain ⟨hlhs, hrhs⟩ := hg.admits p hp
    show Description.Clause.mk p.label (displayName _ ((along σ).symbol p.lhs))
      ((p.rhs.map (along σ).symbol).map _) = _
    rw [hlive _ (SymbolTable.contains_of_kind? hlhs), List.map_map]
    exact congrArg (Description.Clause.mk p.label _)
      (List.map_congr_left fun s hs => hlive s (hrhs s hs))
  rw [describe, describe, SymbolTable.terminals, SymbolTable.nonterminals, hkind, hkind]
  exact congrArg₂ (Description.mk _ _) hstart hproductions

/-! ## Rules -/

theorem system_along : ((along σ).grammar g).system = (along σ).system g.system := by
  have hrules : (g.productions.map (along σ).production).map (·.toRule) =
      (g.productions.map (·.toRule)).map (along σ).rule := by
    rw [List.map_map, List.map_map]
    rfl
  exact congrArg (RuleSystem.mk _ _) hrules

theorem contains_set_along {set : SymbolSet} :
    ((along σ).set set).contains ((along σ).symbol s) = set.contains s := by
  have howner : (σ s.owner = σ set.owner) = (s.owner = set.owner) := propext σ.injective.eq_iff
  show (decide (σ s.owner = σ set.owner) && _) = _
  simp only [howner]
  rfl

theorem symbol_along_surjective (σ : Equiv.Perm Identity) :
    Function.Surjective (along σ).symbol := by
  rintro ⟨owner, index⟩
  exact ⟨⟨σ.symm owner, index⟩, congrArg (Symbol.mk · index) (σ.apply_symm_apply owner)⟩

/-- Rules over other symbols make other symbols vanish. -/
theorem renames_along (rules : List Rule) :
    Renames (fun s s' => (along σ).symbol s = s') rules (rules.map (along σ).rule) where
  unique := by
    refine ⟨fun s t s' hs ht => symbol_along_injective (hs.trans ht.symm), fun s s' t' hs ht => ?_⟩
    exact hs.symm.trans ht
  rules := by
    rw [List.forall₂_map_right_iff]
    refine List.forall₂_same.mpr fun r _ => ⟨rfl, ?_⟩
    rw [rule, Rule.rename, List.forall₂_map_right_iff]
    exact List.forall₂_same.mpr fun _ _ => rfl

theorem nullable_along (hg : g.WellFormed) :
    ((along σ).grammar g).system.nullable = (along σ).set g.system.nullable := by
  have hspace : ∀ system : RuleSystem, SymbolSet.SameSpace system.nullable system.noSymbols := by
    intro system
    have hsaturate := RuleSystem.sameSpace_saturate system .all system.vanishing
    have hvanishing := RuleSystem.sameSpace_vanishing system
    exact ⟨hsaturate.owner.trans hvanishing.owner, hsaturate.size.trans hvanishing.size⟩
  have hscoped : ((along σ).grammar g).system.isScoped = true := by
    rw [grammar_along_eq_clone hg]
    exact (hg.clone _).isScoped
  refine SymbolSet.eq_of_carrier ?_ ?_ (Set.ext fun s' => ?_)
  · rw [(hspace _).owner]
    exact congrArg σ (hspace g.system).owner.symm
  · rw [(hspace _).size]
    exact (hspace g.system).size.symm
  · obtain ⟨s, rfl⟩ := symbol_along_surjective σ s'
    rw [SymbolSet.mem_carrier, SymbolSet.mem_carrier, contains_set_along,
      RuleSystem.contains_nullable_iff hscoped, RuleSystem.contains_nullable_iff hg.isScoped,
      system_along]
    exact ((renames_along g.system.rules).vanishes_iff rfl).symm

/-! ## The index -/

theorem le_along {s s' : Symbol} (howner : s.owner = s'.owner) :
    ((along σ).symbol s).le ((along σ).symbol s') = s.le s' := by
  simp [Symbol.le, along, Symbol.rebind, howner]

/-- Symbols of one owner come in the same order under another. -/
theorem insertEntry_along {lhs : Symbol} {i : Production.Id}
    {entries : List (Symbol × List Production.Id)}
    (howner : ∀ entry ∈ entries, entry.1.owner = lhs.owner) :
    ProductionIndex.insertEntry ((along σ).symbol lhs) ((along σ).id i)
        (entries.map fun entry => ((along σ).symbol entry.1, entry.2.map (along σ).id)) =
      (ProductionIndex.insertEntry lhs i entries).map fun entry =>
        ((along σ).symbol entry.1, entry.2.map (along σ).id) := by
  induction entries with
  | nil => rfl
  | cons entry entries ih =>
      obtain ⟨s, ids⟩ := entry
      obtain ⟨hs, hrest⟩ := List.forall_mem_cons.mp howner
      have heq : ((along σ).symbol s = (along σ).symbol lhs) = (s = lhs) :=
        propext symbol_along_injective.eq_iff
      simp only [List.map_cons, ProductionIndex.insertEntry, heq, le_along hs.symm]
      split
      · rw [List.map_cons, List.map_append]
        rfl
      · split
        · rfl
        · rw [List.map_cons, ih hrest]

theorem owner_of_mem_insertEntry {id : Identity} {lhs : Symbol} {i : Production.Id}
    {entries : List (Symbol × List Production.Id)} (hlhs : lhs.owner = id)
    (howner : ∀ entry ∈ entries, entry.1.owner = id) :
    ∀ entry ∈ ProductionIndex.insertEntry lhs i entries, entry.1.owner = id := by
  induction entries with
  | nil => simpa [ProductionIndex.insertEntry] using hlhs
  | cons entry entries ih =>
      obtain ⟨s, ids⟩ := entry
      obtain ⟨hs, hrest⟩ := List.forall_mem_cons.mp howner
      unfold ProductionIndex.insertEntry
      split
      · exact List.forall_mem_cons.mpr ⟨hs, hrest⟩
      · split
        · exact List.forall_mem_cons.mpr ⟨hlhs, howner⟩
        · exact List.forall_mem_cons.mpr ⟨hs, ih hrest⟩

theorem index_along (hg : g.WellFormed) :
    ((along σ).grammar g).index = (along σ).index g.index := by
  -- All left-hand sides that are in the index at any time belong to the grammar.
  have hfold : ∀ (ps : List Production) (index : ProductionIndex),
      (∀ p ∈ ps, p.lhs.owner = g.id) → (∀ entry ∈ index.entries, entry.1.owner = g.id) →
        (ps.map (along σ).production).foldl (fun index p => index.insert p.lhs p.id)
            ((along σ).index index) =
          (along σ).index (ps.foldl (fun index p => index.insert p.lhs p.id) index) := by
    intro ps
    induction ps with
    | nil => exact fun _ _ _ => rfl
    | cons p ps ih =>
        intro index hps howner
        obtain ⟨hp, hrest⟩ := List.forall_mem_cons.mp hps
        have hinsert : ((along σ).index index).insert ((along σ).symbol p.lhs)
            ((along σ).id p.id) = (along σ).index (index.insert p.lhs p.id) :=
          congrArg ProductionIndex.mk
            (insertEntry_along fun entry hmem => (howner entry hmem).trans hp.symm)
        rw [List.map_cons, List.foldl_cons, List.foldl_cons, production, hinsert]
        exact ih _ hrest (owner_of_mem_insertEntry hp howner)
  refine hfold g.productions {} (fun p hp => ?_) (by simp)
  exact (SymbolTable.lt_of_contains (SymbolTable.contains_of_kind? (hg.admits p hp).1)).1

/-- **Questions do not depend on identities.** A well-formed grammar under other identities gives
the translated answer to the translated question. -/
theorem query_along (hg : g.WellFormed) (q : Query) :
    ((along σ).query q).run ((along σ).grammar g) = (along σ).answer (q.run g) := by
  cases q with
  | id => rfl
  | table => rfl
  | size => rfl
  | liveCount => rfl
  | symbols => exact congrArg Answer.symbols (symbols_along g.symbols)
  | ofKind kind => exact congrArg Answer.symbols (ofKind_along g.symbols kind)
  | contains s => exact congrArg Answer.truth contains_along
  | issued s => exact congrArg Answer.truth issued_along
  | kindOf s => exact congrArg Answer.kind kind?_along
  | isOfKind kind s => exact congrArg (fun k => Answer.truth (k == some kind)) kind?_along
  | nameOf s => exact congrArg Answer.name name?_along
  | find name => exact congrArg Answer.symbol (find?_along g.symbols name)
  | isNameTaken name => rfl
  | start => rfl
  | productions => rfl
  | production i => exact congrArg Answer.production production?_along
  | productionsOf lhs => exact congrArg Answer.productions productionsOf_along
  | index => exact congrArg Answer.index (index_along hg)
  | system => exact congrArg Answer.system system_along
  | nullable => exact congrArg Answer.set (nullable_along hg)
  | displayName s => exact congrArg (fun p => Answer.pieces [p]) display_along
  | ruleText r => exact congrArg Answer.pieces (rulePieces_along r)
  | text => exact congrArg Answer.text (text_along hg)
  | describe => exact congrArg Answer.description (describe_along hg)

end Translation

end TopDown
