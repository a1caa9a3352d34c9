import TopDown.Proofs.Grammar.Reachable
import TopDown.Proofs.Transform.FreshName

/-!
# Loading descriptions

A description that can be loaded determines the symbol table, the productions and the start symbol
of the grammar: names are handed out in the order in which they are declared, and afterwards every
name stands for the one symbol that has it.

* `Description.table` is the symbol table that a description declares, and
  `Description.find?_table` says which symbol a name stands for.
* `Description.Loads` is what a description says of a grammar; `loads_of_ofDescription` says that
  loading brings it about.
* `lookup?_place`, `find?_table_displayName`: a grammar's own description declares the grammar's
  symbols over again, and the name of each stands for the symbol at its place.
-/

namespace TopDown

variable {id : Identity} {s : Symbol} {name : String}

/-! ## Declaring names -/

namespace SymbolTable

variable {table : SymbolTable} {kind : Symbol.Kind} {names : List String}

theorem isNameTaken_add {other : String} : (table.add kind name).2.isNameTaken other =
    (table.isNameTaken other || name == other) := by
  simp [isNameTaken, add]

theorem addAll_eq : (table.addAll kind names).2 =
    { table with
      entries := table.entries ++ (names.map fun name => some ⟨name, kind⟩).toArray } := by
  induction names generalizing table with
  | nil => simp [addAll]
  | cons name names ih =>
      show ((table.add kind name).2.addAll kind names).2 = _
      rw [ih]
      simp [add]

/-- A name stands for the only symbol that has it. -/
theorem find?_eq_some (hs : table.name? s = some name)
    (hunique : ∀ t, table.name? t = some name → t = s) : table.find? name = some s := by
  have hlive : s ∈ table.symbols := by
    obtain ⟨entry, hentry, -⟩ := Option.map_eq_some_iff.mp hs
    rw [mem_symbols, contains, hentry]
    rfl
  cases hfind : table.find? name with
  | none =>
      have hnone := List.find?_eq_none.mp hfind s hlive
      simp [hs] at hnone
  | some t =>
      have hname : table.name? t = some name := by simpa using List.find?_some hfind
      rw [hunique t hname]

end SymbolTable

namespace Grammar

variable {g g' : Grammar} {kind : Symbol.Kind} {names : List String}

/-- Names are declared exactly if they are distinct and free. -/
theorem declare_eq_ok_iff : g.declare kind names = .ok g' ↔
    names.Nodup ∧ (∀ name ∈ names, g.symbols.isNameTaken name = false) ∧
      (g.addSymbols kind names).2 = g' := by
  induction names generalizing g with
  | nil => simp [declare, addSymbols, SymbolTable.addAll]
  | cons name names ih =>
      have hadd : (g.addSymbols kind (name :: names)).2 =
          ((g.addSymbol kind name).2.addSymbols kind names).2 := rfl
      have htaken : ∀ other, (g.addSymbol kind name).2.symbols.isNameTaken other =
          (g.symbols.isNameTaken other || name == other) := fun _ => SymbolTable.isNameTaken_add
      rw [declare, hadd]
      split
      · rename_i hname
        simp [hname]
      · rename_i hname
        rw [ih, List.nodup_cons, List.forall_mem_cons]
        simp only [htaken, Bool.or_eq_false_iff, beq_eq_false_iff_ne, ne_eq]
        grind

/-! ## The grammar of a description -/

theorem resolve_eq_ok_iff : g.resolve name = .ok s ↔ g.symbols.find? name = some s := by
  unfold resolve
  split
  · rename_i heq
    rw [heq, Except.ok.injEq, Option.some.injEq]
  · rename_i heq
    simp [heq]

theorem mapM_resolve_eq_ok_iff {rhs : List Symbol} : names.mapM g.resolve = .ok rhs ↔
    List.Forall₂ (fun name s => g.symbols.find? name = some s) names rhs := by
  induction names generalizing rhs with
  | nil =>
      constructor
      · rintro ⟨⟩
        exact .nil
      · rintro ⟨⟩
        rfl
  | cons name names ih =>
      simp only [List.mapM_cons, bind_eq_ok_iff, resolve_eq_ok_iff, ih]
      constructor
      · rintro ⟨s, hs, rest, hrest, ⟨⟩⟩
        exact .cons hs hrest
      · rintro ⟨⟩
        exact ⟨_, ‹_›, _, ‹_›, rfl⟩

end Grammar

namespace Description

open Grammar

/-- A clause tells of a production over a symbol table. -/
structure Clause.Tells (table : SymbolTable) (clause : Clause) (q : Production) : Prop where
  label : q.label = clause.label
  lhs : table.find? clause.lhs = some q.lhs
  rhs : List.Forall₂ (fun name s => table.find? name = some s) clause.rhs q.rhs

def names (d : Description) : List String := d.terminals ++ d.nonterminals

def entries (d : Description) : List SymbolTable.Entry :=
  d.terminals.map (⟨·, .terminal⟩) ++ d.nonterminals.map (⟨·, .nonterminal⟩)

def table (d : Description) (id : Identity) : SymbolTable where
  id
  entries := (d.entries.map some).toArray

/-- What a description says of a grammar. -/
structure Loads (d : Description) (id : Identity) (g : Grammar) : Prop where
  distinct : d.names.Nodup
  symbols : g.symbols = d.table id
  productions : List.Forall₂ (Clause.Tells (d.table id)) d.productions g.productions
  start : g.start = d.start.bind (d.table id).find?

variable {d : Description} {g g' : Grammar}

theorem map_name_entries : d.entries.map (·.name) = d.names := by
  simp only [entries, names, List.map_append, List.map_map]
  exact congrArg₂ (· ++ ·) (List.map_id _) (List.map_id _)

theorem lookup?_table :
    (d.table id).lookup? s = if s.owner = id then d.entries[s.index]? else none := by
  rw [SymbolTable.lookup?]
  refine if_congr Iff.rfl ?_ rfl
  simp only [table, List.getElem?_toArray, List.getElem?_map]
  cases d.entries[s.index]? with
  | none => rfl
  | some entry => rfl

theorem name?_table : (d.table id).name? s = if s.owner = id then d.names[s.index]? else none := by
  rw [SymbolTable.name?, lookup?_table, ← map_name_entries, List.getElem?_map]
  split <;> rfl

/-- Where all names differ, a name stands for the symbol that has it. -/
theorem find?_table (hdistinct : d.names.Nodup) (hs : (d.table id).name? s = some name) :
    (d.table id).find? name = some s := by
  refine SymbolTable.find?_eq_some hs fun t ht => ?_
  rw [name?_table] at hs ht
  split at hs
  · split at ht
    · rename_i howner howner'
      have hlt : t.index < d.names.length := (List.getElem?_eq_some_iff.mp ht).1
      have hindex : t.index = s.index :=
        (List.getElem?_inj hlt hdistinct).mp (ht.trans hs.symm)
      exact congrArg₂ Symbol.mk (howner'.trans howner.symm) hindex
    · cases ht
  · cases hs

theorem tells_of_addClause {clause : Clause} (hok : g.addClause clause = .ok g') :
    g'.symbols = g.symbols ∧ g'.start = g.start ∧
      ∃ q, g'.productions = g.productions ++ [q] ∧ clause.Tells g.symbols q := by
  unfold addClause at hok
  obtain ⟨lhs, hlhs, hok⟩ := of_bind_eq_ok hok
  obtain ⟨rhs, hrhs, hok⟩ := of_bind_eq_ok hok
  obtain ⟨⟨i, g''⟩, hadd, hok⟩ := of_bind_eq_ok hok
  cases hok
  obtain ⟨-, heq⟩ := grant_eq_ok_iff.mp hadd
  obtain ⟨-, rfl⟩ := Prod.mk.inj heq
  exact ⟨rfl, rfl, _, rfl, rfl, resolve_eq_ok_iff.mp hlhs, mapM_resolve_eq_ok_iff.mp hrhs⟩

theorem tells_of_addClauses {clauses : List Clause} (hok : clauses.foldlM addClause g = .ok g') :
    g'.symbols = g.symbols ∧ g'.start = g.start ∧
      ∃ new, g'.productions = g.productions ++ new ∧
        List.Forall₂ (Clause.Tells g.symbols) clauses new := by
  induction clauses generalizing g with
  | nil =>
      cases hok
      exact ⟨rfl, rfl, [], (List.append_nil _).symm, .nil⟩
  | cons clause clauses ih =>
      rw [List.foldlM_cons] at hok
      obtain ⟨g'', hclause, hok⟩ := of_bind_eq_ok hok
      obtain ⟨hsymbols, hstart, q, hq, htells⟩ := tells_of_addClause hclause
      obtain ⟨hsymbols', hstart', new, hnew, hrest⟩ := ih hok
      rw [hsymbols] at hrest
      refine ⟨hsymbols'.trans hsymbols, hstart'.trans hstart, q :: new, ?_, .cons htells hrest⟩
      rw [hnew, hq, List.append_assoc, List.singleton_append]

theorem symbols_addSymbols_empty (id : Identity) (kind : Symbol.Kind) (names : List String) :
    ((empty id).addSymbols kind names).2.symbols =
      { id, entries := (names.map fun name => some ⟨name, kind⟩).toArray } := by
  refine SymbolTable.addAll_eq.trans ?_
  simp [empty]

/-- Terminals are declared before nonterminals. -/
theorem symbols_declared (d : Description) (id : Identity) :
    (((empty id).addSymbols .terminal d.terminals).2.addSymbols .nonterminal
      d.nonterminals).2.symbols = d.table id := by
  refine SymbolTable.addAll_eq.trans ?_
  rw [symbols_addSymbols_empty]
  simp [table, entries, Function.comp_def]

def declared (d : Description) (id : Identity) : Grammar :=
  (((empty id).addSymbols .terminal d.terminals).2.addSymbols .nonterminal d.nonterminals).2

def designate (d : Description) (g : Grammar) : Except Error Grammar :=
  match d.start with
  | none => .ok g
  | some name => g.setStartByName name

/-- No nonterminal has the name of a terminal that was declared before. -/
theorem free_iff_disjoint (id : Identity) : (∀ name ∈ d.nonterminals,
    ((empty id).addSymbols .terminal d.terminals).2.symbols.isNameTaken name = false) ↔
      d.terminals.Disjoint d.nonterminals := by
  rw [symbols_addSymbols_empty, List.disjoint_comm, List.disjoint_left]
  refine forall₂_congr fun name _ => ?_
  simp [SymbolTable.isNameTaken, List.forall_mem_ne']

/-- A description is loaded by declaring its names, which are distinct, adding its productions and
designating its start. -/
theorem ofDescription_eq_ok_iff : ofDescription id d = .ok g ↔
    d.names.Nodup ∧ ∃ g', d.productions.foldlM addClause (d.declared id) = .ok g' ∧
      d.designate g' = .ok g := by
  have hloading : ofDescription id d = (empty id).declare .terminal d.terminals >>= fun g =>
      g.declare .nonterminal d.nonterminals >>= fun g =>
        d.productions.foldlM addClause g >>= d.designate := rfl
  simp only [hloading, bind_eq_ok_iff, declare_eq_ok_iff, names, List.nodup_append',
    ← free_iff_disjoint id]
  constructor
  · rintro ⟨_, ⟨hterminals, -, rfl⟩, _, ⟨hnonterminals, hnew, rfl⟩, hrest⟩
    exact ⟨⟨hterminals, hnonterminals, hnew⟩, hrest⟩
  · rintro ⟨⟨hterminals, hnonterminals, hnew⟩, hrest⟩
    have hfree : ∀ name ∈ d.terminals, (empty id).symbols.isNameTaken name = false := by
      simp [empty, SymbolTable.isNameTaken]
    exact ⟨_, ⟨hterminals, hfree, rfl⟩, _, ⟨hnonterminals, hnew, rfl⟩, hrest⟩

/-- **A description that can be loaded says what the grammar is.** -/
theorem loads_of_ofDescription (hok : ofDescription id d = .ok g) : d.Loads id g := by
  obtain ⟨hnames, g', hclauses, hok⟩ := ofDescription_eq_ok_iff.mp hok
  obtain ⟨hsymbols, hstart, new, hnew, htells⟩ := tells_of_addClauses hclauses
  rw [declared, symbols_declared] at hsymbols htells
  have hproductions : List.Forall₂ (Clause.Tells (d.table id)) d.productions g'.productions := by
    rw [hnew]
    exact htells
  unfold designate at hok
  cases hname : d.start with
  | none =>
      rw [hname] at hok
      cases hok
      refine ⟨hnames, hsymbols, hproductions, hstart.trans ?_⟩
      rw [hname]
      rfl
  | some name =>
      rw [hname] at hok
      obtain ⟨start, hresolve, hok⟩ := of_bind_eq_ok (f := g'.setStart) hok
      obtain ⟨-, rfl⟩ := grant_eq_ok_iff.mp hok
      refine ⟨hnames, hsymbols, hproductions, ?_⟩
      rw [hname, ← hsymbols]
      exact (resolve_eq_ok_iff.mp hresolve).symm

end Description

/-! ## The description of a grammar -/

namespace Grammar

variable {g : Grammar} {s' t : Symbol}

def declared (g : Grammar) : List Symbol := g.symbols.terminals ++ g.symbols.nonterminals

/-- The symbol that a live symbol becomes if the grammar's description is loaded. -/
def place (g : Grammar) (id : Identity) (s : Symbol) : Symbol := ⟨id, g.declared.idxOf s⟩

theorem mem_declared_iff : s ∈ g.declared ↔ g.symbols.contains s = true := by
  rw [declared, List.mem_append, SymbolTable.terminals, SymbolTable.nonterminals,
    SymbolTable.mem_ofKind_iff, SymbolTable.mem_ofKind_iff, SymbolTable.contains_iff_kind?]
  constructor
  · rintro (hs | hs)
    · exact ⟨_, hs⟩
    · exact ⟨_, hs⟩
  · rintro ⟨kind, hs⟩
    cases kind with
    | terminal => exact Or.inl hs
    | nonterminal => exact Or.inr hs

theorem nodup_declared : g.declared.Nodup := by
  refine List.nodup_append.mpr ⟨SymbolTable.nodup_ofKind, SymbolTable.nodup_ofKind, ?_⟩
  rintro s hs _ ht rfl
  have hkind := (SymbolTable.mem_ofKind_iff.mp hs).symm.trans (SymbolTable.mem_ofKind_iff.mp ht)
  cases hkind

/-- The description declares the entries of the live symbols. -/
theorem map_some_entries_describe :
    g.describe.entries.map some = g.declared.map g.symbols.lookup? := by
  have hentry : ∀ kind, ∀ s ∈ g.symbols.ofKind kind,
      some ⟨g.displayName s, kind⟩ = g.symbols.lookup? s := by
    intro kind s hs
    obtain ⟨entry, hentry, rfl⟩ := Option.map_eq_some_iff.mp (SymbolTable.mem_ofKind_iff.mp hs)
    rw [displayName, SymbolTable.name?, hentry]
    rfl
  simp only [Description.entries, describe, declared, List.map_append, List.map_map]
  exact congrArg₂ (· ++ ·) (List.map_congr_left (hentry _)) (List.map_congr_left (hentry _))

theorem names_describe : g.describe.names = g.declared.map g.displayName := List.map_append.symm

/-- What is known of a symbol is known of it at its place. -/
theorem lookup?_place (hs : g.symbols.contains s = true) :
    (g.describe.table id).lookup? (g.place id s) = g.symbols.lookup? s := by
  have hentry := congrArg (·[g.declared.idxOf s]?) (g.map_some_entries_describe)
  simp only [List.getElem?_map, List.getElem?_idxOf (mem_declared_iff.mpr hs),
    Option.map_some] at hentry
  obtain ⟨entry, hentry, hlookup⟩ := Option.map_eq_some_iff.mp hentry
  rw [Description.lookup?_table, ← hlookup]
  exact (if_pos rfl).trans hentry

theorem place_injOn : Set.InjOn (g.place id) {s | g.symbols.contains s = true} := by
  intro s hs t _ heq
  exact (List.idxOf_inj (mem_declared_iff.mpr hs)).mp (congrArg Symbol.index heq)

/-- Every live symbol of the loaded grammar is the place of one. -/
theorem exists_place (hs' : (g.describe.table id).contains s' = true) :
    ∃ s, g.symbols.contains s = true ∧ g.place id s = s' := by
  obtain ⟨howner, hindex⟩ := SymbolTable.lt_of_contains hs'
  have hlt : s'.index < g.declared.length := by
    have hlength := congrArg List.length g.map_some_entries_describe
    rw [List.length_map, List.length_map] at hlength
    rw [← hlength]
    simpa [SymbolTable.size, Description.table] using hindex
  refine ⟨g.declared[s'.index], mem_declared_iff.mp (List.getElem_mem hlt), ?_⟩
  exact congrArg₂ Symbol.mk howner.symm (g.nodup_declared.idxOf_getElem _ hlt)

/-- The symbols of a kind are declared together, in their order. -/
theorem exists_index_place_eq (g : Grammar) (id : Identity) (kind : Symbol.Kind) :
    ∃ first, ∀ s, g.symbols.kind? s = some kind →
      (g.place id s).index = first + (g.symbols.ofKind kind).idxOf s := by
  cases kind with
  | terminal =>
      refine ⟨0, fun s hs => ?_⟩
      rw [Nat.zero_add]
      exact List.idxOf_append_of_mem (SymbolTable.mem_ofKind_iff.mpr hs)
  | nonterminal =>
      refine ⟨g.symbols.terminals.length, fun s hs => List.idxOf_append_of_notMem fun hmem => ?_⟩
      have hkind := (SymbolTable.mem_ofKind_iff.mp hmem).symm.trans hs
      cases hkind

/-- Symbols of one kind keep their order. -/
theorem index_place_lt_iff {kind : Symbol.Kind} (hs : g.symbols.kind? s = some kind)
    (ht : g.symbols.kind? t = some kind) :
    s.index < t.index ↔ (g.place id s).index < (g.place id t).index := by
  obtain ⟨first, hplace⟩ := g.exists_index_place_eq id kind
  have hlt : ∀ {s t}, g.symbols.kind? s = some kind → g.symbols.kind? t = some kind →
      (g.symbols.ofKind kind).idxOf s < (g.symbols.ofKind kind).idxOf t → s.index < t.index := by
    intro s t hs ht hlt
    have hs' := List.idxOf_lt_length_iff.mpr (SymbolTable.mem_ofKind_iff.mpr hs)
    have ht' := List.idxOf_lt_length_iff.mpr (SymbolTable.mem_ofKind_iff.mpr ht)
    have hsorted := List.pairwise_iff_getElem.mp g.symbols.pairwise_ofKind _ _ hs' ht' hlt
    rwa [List.getElem_idxOf, List.getElem_idxOf] at hsorted
  rw [hplace s hs, hplace t ht, Nat.add_lt_add_iff_left]
  refine ⟨fun hindex => ?_, hlt hs ht⟩
  rcases Nat.lt_trichotomy ((g.symbols.ofKind kind).idxOf s) ((g.symbols.ofKind kind).idxOf t) with
    hidx | hidx | hidx
  · exact hidx
  · have heq := (List.idxOf_inj (SymbolTable.mem_ofKind_iff.mpr hs)).mp hidx
    exact absurd (heq ▸ hindex) (Nat.lt_irrefl _)
  · exact absurd (Nat.lt_trans hindex (hlt ht hs hidx)) (Nat.lt_irrefl _)

/-- **The name of a symbol stands for the symbol at its place**, if all names differ. -/
theorem find?_table_displayName (hdistinct : g.describe.names.Nodup)
    (hs : g.symbols.contains s = true) :
    (g.describe.table id).find? (g.displayName s) = some (g.place id s) := by
  refine Description.find?_table hdistinct ?_
  rw [Description.name?_table, names_describe, List.getElem?_map]
  refine (if_pos rfl).trans ?_
  exact congrArg (Option.map _) (List.getElem?_idxOf (mem_declared_iff.mpr hs))

end Grammar

end TopDown
