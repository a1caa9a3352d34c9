import TopDown.Proofs.Isomorphism.Copies
import TopDown.Proofs.SymbolTable.CreationLog

/-!
# Descriptions there and back

Loading a description and describing a grammar undo each other, as far as names can tell.

* `Description.WellNamed` is what a description must be like to be loaded, and
  `exists_ofDescription_iff` says that it can be loaded exactly then.
* `describe_of_ofDescription`: a grammar that was loaded has the description it was loaded from.
* `wellNamed_describe_iff`: the description of a grammar can be loaded exactly if no two of its
  live symbols have the same name.
* `description_round_trip`: both directions. What is loaded from the description of a grammar is
  isomorphic to it, under the same names, with each kind of symbols in its order.
-/

namespace TopDown

variable {id : Identity} {s t : Symbol} {name : String}

/-! ## Names in tables -/

namespace SymbolTable

variable {table : SymbolTable}

theorem name?_of_find? (h : table.find? name = some s) : table.name? s = some name := by
  simpa using List.find?_some h

theorem contains_of_find? (h : table.find? name = some s) : table.contains s = true :=
  mem_symbols.mp (List.mem_of_find?_eq_some h)

/-- The symbols of a kind have the entries of that kind, in order. -/
theorem filterMap_lookup?_ofKind (table : SymbolTable) (kind : Symbol.Kind) :
    (table.ofKind kind).filterMap table.lookup? =
      (table.entries.toList.filterMap fun entry => entry).filter (·.kind == kind) := by
  rw [← map_lookup?_range, ofKind, symbols, List.filter_filter, List.filterMap_filter,
    List.filterMap_map, List.filterMap_map, List.filter_filterMap]
  refine List.filterMap_congr fun i _ => ?_
  rcases Option.eq_none_or_eq_some (table.lookup? ⟨table.id, i⟩) with hnone | ⟨entry, hentry⟩
  · simp [hnone]
  · simp [kind?, contains, hentry, Option.filter]

end SymbolTable

namespace Grammar

variable {g g' : Grammar}

theorem displayName_of_find? (h : g.symbols.find? name = some s) : g.displayName s = name := by
  rw [displayName, SymbolTable.name?_of_find? h]
  rfl

/-- The names of the symbols of a kind are those of the entries of that kind, in order. -/
theorem map_displayName_ofKind (g : Grammar) (kind : Symbol.Kind) :
    (g.symbols.ofKind kind).map g.displayName =
      ((g.symbols.entries.toList.filterMap fun entry => entry).filter (·.kind == kind)).map
        (·.name) := by
  rw [← SymbolTable.filterMap_lookup?_ofKind, List.map_filterMap, ← List.filterMap_eq_map]
  refine List.filterMap_congr fun s hs => ?_
  have hkind := SymbolTable.mem_ofKind_iff.mp hs
  exact (name?_eq_some_displayName (SymbolTable.contains_of_kind? hkind)).symm

end Grammar

/-! ## Which descriptions can be loaded -/

namespace Description

open Grammar

variable {d : Description} {g g' : Grammar}

/-- Names are declared once, and used only if they are declared; a left-hand side and the start
name nonterminals. -/
structure WellNamed (d : Description) : Prop where
  distinct : d.names.Nodup
  clauses : ∀ clause ∈ d.productions,
    clause.lhs ∈ d.nonterminals ∧ ∀ name ∈ clause.rhs, name ∈ d.names
  start : ∀ name ∈ d.start, name ∈ d.nonterminals

/-- The names of a clause stand for symbols of a table, and for a nonterminal on the left. -/
def Clause.Fits (table : SymbolTable) (clause : Clause) : Prop :=
  (∃ s, table.find? clause.lhs = some s ∧ table.kind? s = some .nonterminal) ∧
    ∀ name ∈ clause.rhs, ∃ s, table.find? name = some s

theorem exists_addClause_iff {clause : Clause} :
    (∃ g', g.addClause clause = .ok g') ↔ clause.Fits g.symbols := by
  unfold addClause
  simp only [bind_eq_ok_iff, resolve_eq_ok_iff, mapM_resolve_eq_ok_iff]
  constructor
  · rintro ⟨_, lhs, hlhs, rhs, hrhs, _, hadd, -⟩
    have hadmits := ruleFault?_eq_none_iff.mp (grant_eq_ok_iff.mp hadd).1
    refine ⟨⟨lhs, hlhs, hadmits.1⟩, fun name hname => ?_⟩
    obtain ⟨s, -, hs⟩ := exists_of_forall₂ hrhs hname
    exact ⟨s, hs⟩
  · rintro ⟨⟨lhs, hlhs, hkind⟩, hrhs⟩
    obtain ⟨rhs, hrhs⟩ := exists_forall₂ hrhs
    have hadmits : g.Admits ⟨lhs, rhs⟩ := by
      refine ⟨hkind, fun s hs => ?_⟩
      obtain ⟨name, -, hname⟩ := exists_of_forall₂ hrhs.flip hs
      exact SymbolTable.contains_of_find? hname
    have hadd : ∃ added, g.addProduction clause.label lhs rhs = .ok added :=
      ⟨_, grant_eq_ok_iff.mpr ⟨ruleFault?_eq_none_iff.mpr hadmits, rfl⟩⟩
    obtain ⟨added, hadd⟩ := hadd
    exact ⟨_, lhs, hlhs, rhs, hrhs, added, hadd, rfl⟩

/-- The productions can be added exactly if each clause fits the symbols that are declared. -/
theorem exists_addClauses_iff {clauses : List Clause} :
    (∃ g', clauses.foldlM addClause g = .ok g') ↔ ∀ clause ∈ clauses, clause.Fits g.symbols := by
  induction clauses generalizing g with
  | nil => exact iff_of_true ⟨g, rfl⟩ fun _ hmem => absurd hmem List.not_mem_nil
  | cons clause clauses ih =>
      simp only [List.foldlM_cons, bind_eq_ok_iff, List.forall_mem_cons]
      constructor
      · rintro ⟨g', g₁, hclause, hrest⟩
        refine ⟨exists_addClause_iff.mp ⟨g₁, hclause⟩, ?_⟩
        rw [← (tells_of_addClause hclause).1]
        exact ih.mp ⟨g', hrest⟩
      · rintro ⟨hclause, hrest⟩
        obtain ⟨g₁, hclause⟩ := exists_addClause_iff.mpr hclause
        rw [← (tells_of_addClause hclause).1] at hrest
        obtain ⟨g', hg'⟩ := ih.mpr hrest
        exact ⟨g', g₁, hclause, hg'⟩

theorem exists_designate_iff : (∃ g', d.designate g = .ok g') ↔ ∀ name ∈ d.start,
    ∃ s, g.symbols.find? name = some s ∧ g.symbols.kind? s = some .nonterminal := by
  unfold designate
  cases d.start with
  | none => simp
  | some name =>
      simp only [setStartByName, bind_eq_ok_iff, resolve_eq_ok_iff, setStart, grant_eq_ok_iff,
        nonterminalFault?_eq_none_iff, Option.mem_def, Option.some.injEq, forall_eq']
      constructor
      · rintro ⟨_, s, hs, hkind, -⟩
        exact ⟨s, hs, hkind⟩
      · rintro ⟨s, hs, hkind⟩
        exact ⟨_, s, hs, hkind, rfl⟩

theorem mem_names_iff : name ∈ d.names ↔ ∃ kind, ⟨name, kind⟩ ∈ d.entries := by
  rw [← map_name_entries, List.mem_map]
  constructor
  · rintro ⟨entry, hentry, rfl⟩
    exact ⟨entry.kind, hentry⟩
  · rintro ⟨kind, hentry⟩
    exact ⟨_, hentry, rfl⟩

theorem mem_nonterminals_iff : name ∈ d.nonterminals ↔ ⟨name, .nonterminal⟩ ∈ d.entries := by
  simp [entries]

/-- A name stands for a symbol of a kind exactly if it is declared with that kind. -/
theorem exists_find?_table_iff (id : Identity) (hdistinct : d.names.Nodup) {kind : Symbol.Kind} :
    (∃ s, (d.table id).find? name = some s ∧ (d.table id).kind? s = some kind) ↔
      ⟨name, kind⟩ ∈ d.entries := by
  constructor
  · rintro ⟨s, hs, hkind⟩
    have hname := SymbolTable.name?_of_find? hs
    obtain ⟨⟨_, _⟩, hentry, rfl⟩ := Option.map_eq_some_iff.mp hkind
    obtain ⟨_, hentry', rfl⟩ := Option.map_eq_some_iff.mp hname
    cases hentry.symm.trans hentry'
    rw [lookup?_table] at hentry
    split at hentry
    · exact List.mem_of_getElem? hentry
    · cases hentry
  · intro hmem
    obtain ⟨i, hi, hentry⟩ := List.getElem_of_mem hmem
    have hlookup : (d.table id).lookup? ⟨id, i⟩ = some ⟨name, kind⟩ := by
      rw [lookup?_table, if_pos rfl, List.getElem?_eq_getElem hi, hentry]
    refine ⟨⟨id, i⟩, find?_table hdistinct ?_, ?_⟩
    · rw [SymbolTable.name?, hlookup]
      rfl
    · rw [SymbolTable.kind?, hlookup]
      rfl

theorem exists_find?_iff_mem_names (hdistinct : d.names.Nodup) :
    (∃ s, (d.table id).find? name = some s) ↔ name ∈ d.names := by
  simp only [mem_names_iff, ← exists_find?_table_iff id hdistinct]
  constructor
  · rintro ⟨s, hs⟩
    obtain ⟨kind, hkind⟩ := SymbolTable.contains_iff_kind?.mp (SymbolTable.contains_of_find? hs)
    exact ⟨kind, s, hs, hkind⟩
  · rintro ⟨-, s, hs, -⟩
    exact ⟨s, hs⟩

/-- **A description can be loaded exactly if its names are in order.** -/
theorem exists_ofDescription_iff : (∃ g, ofDescription id d = .ok g) ↔ d.WellNamed := by
  have hfits : d.names.Nodup → ((∀ clause ∈ d.productions, clause.Fits (d.table id)) ↔
      ∀ clause ∈ d.productions,
        clause.lhs ∈ d.nonterminals ∧ ∀ name ∈ clause.rhs, name ∈ d.names) := by
    intro hdistinct
    simp only [Clause.Fits, exists_find?_table_iff id hdistinct,
      exists_find?_iff_mem_names hdistinct, mem_nonterminals_iff]
  simp only [ofDescription_eq_ok_iff]
  constructor
  · rintro ⟨g, hdistinct, g', hclauses, hstart⟩
    have hsymbols : g'.symbols = d.table id :=
      (tells_of_addClauses hclauses).1.trans (symbols_declared d id)
    refine ⟨hdistinct, (hfits hdistinct).mp ?_, fun name hname => ?_⟩
    · rw [← symbols_declared d id]
      exact exists_addClauses_iff.mp ⟨g', hclauses⟩
    · have hfound := exists_designate_iff.mp ⟨g, hstart⟩ name hname
      rw [hsymbols] at hfound
      exact mem_nonterminals_iff.mpr ((exists_find?_table_iff id hdistinct).mp hfound)
  · rintro ⟨hdistinct, hclauses, hstart⟩
    have hfits' := (hfits hdistinct).mpr hclauses
    rw [← symbols_declared d id] at hfits'
    obtain ⟨g', hg'⟩ := exists_addClauses_iff.mpr hfits'
    have hsymbols : g'.symbols = d.table id :=
      (tells_of_addClauses hg').1.trans (symbols_declared d id)
    have hdesignate : ∃ g, d.designate g' = .ok g := by
      refine exists_designate_iff.mpr fun name hname => ?_
      rw [hsymbols]
      exact (exists_find?_table_iff id hdistinct).mpr (mem_nonterminals_iff.mp (hstart name hname))
    obtain ⟨g, hg⟩ := hdesignate
    exact ⟨g, hdistinct, g', hg', hg⟩

/-! ## The description of what was loaded -/

theorem filter_kind_entries (d : Description) (kind : Symbol.Kind) :
    (d.entries.filter (·.kind == kind)).map (·.name) =
      match kind with
      | .terminal => d.terminals
      | .nonterminal => d.nonterminals := by
  cases kind <;> simp [entries, List.filter_map, Function.comp_def]

theorem map_displayName_ofKind_of_loads (hload : d.Loads id g) (kind : Symbol.Kind) :
    (g.symbols.ofKind kind).map g.displayName =
      match kind with
      | .terminal => d.terminals
      | .nonterminal => d.nonterminals := by
  rw [map_displayName_ofKind, ← filter_kind_entries, hload.symbols]
  simp [table, List.filterMap_map]

/-- A production that a clause tells of is told by that clause. -/
theorem describe_of_tells {clause : Clause} {q : Production}
    (htells : clause.Tells g.symbols q) :
    (⟨q.label, g.displayName q.lhs, q.rhs.map g.displayName⟩ : Clause) = clause := by
  have hrhs : q.rhs.map g.displayName = clause.rhs :=
    (eq_map_of_forall₂ htells.rhs.flip fun s name hs => (displayName_of_find? hs).symm).symm
  rw [htells.label, displayName_of_find? htells.lhs, hrhs]

theorem productions_describe_of_loads (hload : d.Loads id g) :
    g.describe.productions = d.productions := by
  have htells := hload.productions
  rw [← hload.symbols] at htells
  exact (eq_map_of_forall₂ htells.flip fun _ _ hq => (describe_of_tells hq).symm).symm

theorem start_describe_of_ofDescription (hok : ofDescription id d = .ok g) :
    g.describe.start = d.start := by
  have hload := loads_of_ofDescription hok
  have hnamed : d.WellNamed := exists_ofDescription_iff.mp ⟨g, hok⟩
  rw [describe, hload.start]
  cases hstart : d.start with
  | none => rfl
  | some name =>
      have hdeclared := mem_nonterminals_iff.mp (hnamed.start name hstart)
      obtain ⟨s, hs, -⟩ := (exists_find?_table_iff id hnamed.distinct).mpr hdeclared
      rw [Option.bind_some, hs, Option.map_some]
      rw [← hload.symbols] at hs
      exact congrArg some (displayName_of_find? hs)

/-- **A grammar that was loaded has the description it was loaded from.** -/
theorem describe_of_ofDescription (hok : ofDescription id d = .ok g) : g.describe = d := by
  have hload := loads_of_ofDescription hok
  have hterminals : g.describe.terminals = d.terminals :=
    map_displayName_ofKind_of_loads hload .terminal
  have hnonterminals : g.describe.nonterminals = d.nonterminals :=
    map_displayName_ofKind_of_loads hload .nonterminal
  have hstart := start_describe_of_ofDescription hok
  have hproductions := productions_describe_of_loads hload
  cases d
  exact congr (congr (congrArg₂ Description.mk hterminals hnonterminals) hstart) hproductions

end Description

/-! ## The description of a grammar, loaded -/

namespace Grammar

variable {g h : Grammar}

/-- The names of a description differ exactly if those of the live symbols do. -/
theorem nodup_names_describe_iff : g.describe.names.Nodup ↔
    Set.InjOn g.symbols.name? {s | g.symbols.contains s = true} := by
  rw [names_describe, List.nodup_map_iff_inj_on nodup_declared]
  simp only [mem_declared_iff]
  refine forall₂_congr fun s hs => forall₂_congr fun t ht => ?_
  rw [name?_eq_some_displayName hs, name?_eq_some_displayName ht, Option.some.injEq]

/-- The description of a grammar can be loaded exactly if the names of its live symbols differ. -/
theorem wellNamed_describe_iff (hg : g.WellFormed) : g.describe.WellNamed ↔
    Set.InjOn g.symbols.name? {s | g.symbols.contains s = true} := by
  rw [← nodup_names_describe_iff]
  have hnonterminal : ∀ {s}, g.symbols.kind? s = some .nonterminal →
      g.displayName s ∈ g.describe.nonterminals := fun hs =>
    List.mem_map_of_mem (SymbolTable.mem_nonterminals_iff.mpr hs)
  have hname : ∀ {s}, g.symbols.contains s = true → g.displayName s ∈ g.describe.names := by
    intro s hs
    rw [names_describe]
    exact List.mem_map_of_mem (mem_declared_iff.mpr hs)
  refine ⟨fun hnamed => hnamed.distinct, fun hdistinct => ⟨hdistinct, ?_, ?_⟩⟩
  · intro clause hclause
    obtain ⟨q, hq, rfl⟩ := List.mem_map.mp hclause
    obtain ⟨hlhs, hrhs⟩ := hg.admits q hq
    refine ⟨hnonterminal hlhs, fun name hmem => ?_⟩
    obtain ⟨s, hs, rfl⟩ := List.mem_map.mp hmem
    exact hname (hrhs s hs)
  · intro name hstart
    obtain ⟨s, hs, rfl⟩ := Option.map_eq_some_iff.mp hstart
    exact hnonterminal (hg.start s hs)

theorem start_loads (hg : g.WellFormed) (hload : g.describe.Loads id h) :
    h.start = g.start.map (g.place id) := by
  rw [hload.start, describe]
  cases hstart : g.start with
  | none => rfl
  | some s =>
      have hlive := SymbolTable.contains_of_kind? (hg.start s hstart)
      exact find?_table_displayName hload.distinct hlive

/-- **Descriptions go there and back.** A description can be loaded exactly if it declares each
name once, uses declared names only, and names nonterminals on the left and as the start; what is
loaded then has that description. The description of a grammar can be loaded exactly if the names
of its live symbols differ; what is loaded then is isomorphic to the grammar under the same names,
keeps the order of each kind of symbols and the start symbol, and has the same text. -/
theorem description_round_trip :
    (∀ (id : Identity) (d : Description),
      ((∃ g, ofDescription id d = .ok g) ↔ d.WellNamed) ∧
        ∀ g, ofDescription id d = .ok g → g.describe = d) ∧
    ∀ g : Grammar, g.Reachable → ∀ id,
      ((∃ h, ofDescription id g.describe = .ok h) ↔
        Set.InjOn g.symbols.name? {s | g.symbols.contains s = true}) ∧
      ∀ h, ofDescription id g.describe = .ok h → ∃ φ, Isomorphic φ g h ∧ SameNames φ g h ∧
        (∀ kind s t, g.symbols.kind? s = some kind → g.symbols.kind? t = some kind →
          (s.index < t.index ↔ (φ s).index < (φ t).index)) ∧
        h.start = g.start.map φ ∧ h.text = g.text := by
  refine ⟨fun id d => ⟨Description.exists_ofDescription_iff, fun g hok => ?_⟩, fun g hg id => ?_⟩
  · exact Description.describe_of_ofDescription hok
  · have hwf := hg.wellFormed
    refine ⟨Description.exists_ofDescription_iff.trans (wellNamed_describe_iff hwf), ?_⟩
    intro h hok
    have hload := Description.loads_of_ofDescription hok
    have hiso := isomorphic_loads hload hwf
    exact ⟨_, hiso, sameNames_loads hload, fun _ _ _ hs ht => index_place_lt_iff hs ht,
      start_loads hwf hload, text_eq (sameNames_loads hload) hiso hwf⟩

/-- The sample grammar is loaded from its own description with the terminals in front. -/
theorem description_round_trip_sample :
    ∃ h, sample.Reachable ∧ ofDescription ⟨2⟩ sample.describe = .ok h ∧
      h.describe = sample.describe ∧ sample.describe.WellNamed ∧ h.text = sample.text ∧
      h.symbols.nonterminals = [⟨⟨2⟩, 2⟩] := by
  obtain ⟨hthere, hback⟩ := description_round_trip
  have hnamed : sample.describe.WellNamed := by
    refine ⟨by decide, by decide, by decide⟩
  obtain ⟨h, hok⟩ := (hthere ⟨2⟩ sample.describe).1.mpr hnamed
  have hdescribe := (hthere ⟨2⟩ sample.describe).2 h hok
  obtain ⟨φ, hiso, -, -, -, htext⟩ := (hback sample reachable_sample ⟨2⟩).2 h hok
  refine ⟨h, reachable_sample, hok, hdescribe, hnamed, htext, ?_⟩
  rw [(Description.loads_of_ofDescription hok).symbols]
  decide +kernel

end Grammar

end TopDown
