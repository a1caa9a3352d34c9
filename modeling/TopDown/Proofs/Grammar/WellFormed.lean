import Mathlib.Data.List.Nodup
import TopDown.Grammar.Basic

/-!
# Well-formed grammars

In a well-formed grammar every production is admitted by the symbol table, carries an ID that the
grammar has issued, and shares it with no other production; the start symbol is a nonterminal.

* `Grammar.Admits` is the check of a rule as a proposition; the fault functions find nothing
  exactly on what it admits (`ruleFault?_eq_none_iff`).
* Each edit of symbols, of the start symbol or of single productions keeps well-formedness.
-/

namespace TopDown

namespace SymbolTable

variable {table : SymbolTable} {s : Symbol}

theorem contains_iff_kind? : table.contains s = true ↔ ∃ kind, table.kind? s = some kind := by
  rw [contains, kind?, Option.isSome_iff_exists]
  simp only [Option.map_eq_some_iff]
  constructor
  · rintro ⟨entry, h⟩
    exact ⟨entry.kind, entry, h, rfl⟩
  · rintro ⟨_, entry, h, -⟩
    exact ⟨entry, h⟩

theorem contains_of_kind? {kind : Symbol.Kind} (h : table.kind? s = some kind) :
    table.contains s = true :=
  contains_iff_kind?.mpr ⟨kind, h⟩

theorem lt_of_contains (h : table.contains s = true) :
    s.owner = table.id ∧ s.index < table.size := by
  obtain ⟨entry, he⟩ := Option.isSome_iff_exists.mp h
  exact lt_of_lookup? he

theorem issued_of_contains (h : table.contains s = true) : table.issued s = true := by
  obtain ⟨howner, hindex⟩ := lt_of_contains h
  rw [issued, Bool.and_eq_true, decide_eq_true_eq, decide_eq_true_eq]
  exact ⟨howner, hindex⟩

theorem id_of_rename? {other : SymbolTable} {name : String}
    (h : table.rename? s name = some other) : other.id = table.id := by
  obtain ⟨_, -, rfl⟩ := Option.map_eq_some_iff.mp h
  rfl

theorem id_of_erase? {other : SymbolTable} (h : table.erase? s = some other) :
    other.id = table.id := by
  obtain ⟨_, -, rfl⟩ := Option.map_eq_some_iff.mp h
  rfl

theorem kind?_congr {other : SymbolTable} (h : other.lookup? s = table.lookup? s) :
    other.kind? s = table.kind? s := by
  rw [kind?, kind?, h]

theorem contains_congr {other : SymbolTable} (h : other.kind? s = table.kind? s) :
    other.contains s = table.contains s := by
  rw [Bool.eq_iff_iff, contains_iff_kind?, contains_iff_kind?, h]

theorem mem_ofKind_iff {kind : Symbol.Kind} :
    s ∈ table.ofKind kind ↔ table.kind? s = some kind := by
  rw [ofKind, List.mem_filter, mem_symbols, beq_iff_eq, and_iff_right_iff_imp]
  exact contains_of_kind?

theorem mem_nonterminals_iff : s ∈ table.nonterminals ↔ table.kind? s = some .nonterminal :=
  mem_ofKind_iff

/-- The symbols of a kind are listed in creation order. -/
theorem pairwise_ofKind {kind : Symbol.Kind} :
    (table.ofKind kind).Pairwise (·.index < ·.index) := by
  have hrange : ((List.range table.size).map (Symbol.mk table.id)).Pairwise
      (·.index < ·.index) :=
    List.pairwise_map.mpr List.pairwise_lt_range
  exact (hrange.filter _).filter _

theorem nodup_ofKind {kind : Symbol.Kind} : (table.ofKind kind).Nodup :=
  Symbol.nodup_of_pairwise pairwise_ofKind

theorem pairwise_nonterminals : table.nonterminals.Pairwise (·.index < ·.index) := pairwise_ofKind

theorem nodup_nonterminals : table.nonterminals.Nodup := nodup_ofKind

end SymbolTable

namespace Grammar

variable {g g' : Grammar} {s : Symbol} {rule : Rule}

/-- The symbol table has the left-hand side as a nonterminal and every symbol on the right-hand
side. -/
def Admits (g : Grammar) (rule : Rule) : Prop :=
  g.symbols.kind? rule.lhs = some .nonterminal ∧ ∀ s ∈ rule.rhs, g.symbols.contains s = true

/-- A live symbol is shown by its name. -/
theorem name?_eq_some_displayName (hs : g.symbols.contains s = true) :
    g.symbols.name? s = some (g.displayName s) := by
  obtain ⟨entry, hentry⟩ := Option.isSome_iff_exists.mp hs
  rw [displayName, SymbolTable.name?, hentry]
  rfl

/-! ## Faults -/

theorem symbolFault?_eq_none_iff : g.symbolFault? s = none ↔ g.symbols.contains s = true := by
  unfold symbolFault?
  split
  · simp_all
  · split <;> simp_all

theorem nonterminalFault?_eq_none_iff :
    g.nonterminalFault? s = none ↔ g.symbols.kind? s = some .nonterminal := by
  unfold nonterminalFault?
  split
  · simp_all
  · simp_all
  · rename_i hnone
    rw [symbolFault?_eq_none_iff, SymbolTable.contains_iff_kind?]
    simp [hnone]

theorem rhsFault?_eq_none_iff {rhs : List Symbol} :
    g.rhsFault? rhs = none ↔ ∀ s ∈ rhs, g.symbols.contains s = true := by
  simp only [rhsFault?, List.findSome?_eq_none_iff, symbolFault?_eq_none_iff]

theorem ruleFault?_eq_none_iff : g.ruleFault? rule = none ↔ g.Admits rule := by
  rw [ruleFault?, Option.orElse_eq_orElse, Option.orElse_eq_or, Option.or_eq_none_iff,
    nonterminalFault?_eq_none_iff, rhsFault?_eq_none_iff, Admits]

theorem grant_eq_ok_iff {α : Type} {fault? : Option Error} {a b : α} :
    grant fault? a = .ok b ↔ fault? = none ∧ a = b := by
  cases fault? <;> simp [grant]

theorem grant_eq_error_iff {α : Type} {fault? : Option Error} {a : α} {e : Error} :
    grant fault? a = .error e ↔ fault? = some e := by
  cases fault? <;> simp [grant]

/-- The grammar mentions a symbol in a production or designates it as the start. -/
def Uses (g : Grammar) (s : Symbol) : Prop :=
  (∃ p ∈ g.productions, s = p.lhs ∨ s ∈ p.rhs) ∨ g.start = some s

theorem mentions_iff {p : Production} : mentions s p = true ↔ s = p.lhs ∨ s ∈ p.rhs := by
  rw [mentions, Bool.or_eq_true, decide_eq_true_eq, List.contains_iff_mem, eq_comm]

/-- Nothing stands against erasing a symbol exactly if it is not in use. -/
theorem eraseFault?_eq_none_iff : g.eraseFault? s = none ↔ ¬g.Uses s := by
  unfold eraseFault?
  split
  · rename_i p hfind
    have hmentions := mentions_iff.mp (List.find?_some hfind)
    refine iff_of_false (Option.some_ne_none _) (not_not_intro (Or.inl ?_))
    exact ⟨p, List.mem_of_find?_eq_some hfind, hmentions⟩
  · rename_i hnone
    have hunused : ¬∃ p ∈ g.productions, s = p.lhs ∨ s ∈ p.rhs := by
      rintro ⟨p, hp, hmentions⟩
      exact List.find?_eq_none.mp hnone p hp (mentions_iff.mpr hmentions)
    rw [Uses, or_iff_right hunused, ite_eq_right_iff]
    exact forall_congr' fun _ => iff_of_false (Option.some_ne_none _) not_false

def ids (g : Grammar) : List Production.Id := g.productions.map (·.id)

theorem production?_eq_none_iff {id : Production.Id} : g.production? id = none ↔ id ∉ g.ids := by
  simp [production?, ids]

theorem ids_mapProduction {id : Production.Id} {f : Production → Production}
    (hid : ∀ p, (f p).id = p.id) : (g.mapProduction id f).ids = g.ids := by
  unfold ids mapProduction
  rw [List.map_map]
  refine List.map_congr_left fun p _ => ?_
  rw [Function.comp_apply]
  split
  · exact hid p
  · rfl

/-! ## Well-formedness -/

structure WellFormed (g : Grammar) : Prop where
  admits : ∀ p ∈ g.productions, g.Admits p.toRule
  issued : ∀ p ∈ g.productions, p.id.owner = g.id ∧ p.id.serial < g.nextSerial
  distinct : (g.productions.map (·.id)).Nodup
  start : ∀ s, g.start = some s → g.symbols.kind? s = some .nonterminal

theorem wellFormed_empty (id : Identity) : (empty id).WellFormed where
  admits := by simp [empty]
  issued := by simp [empty]
  distinct := by simp [empty]
  start := by simp [empty]

namespace WellFormed

/-- The symbol table may be exchanged for one with the same kinds of the symbols in use. -/
theorem of_symbols (h : g.WellFormed) {table : SymbolTable} (hid : table.id = g.symbols.id)
    (hkind : ∀ s, g.Uses s → table.kind? s = g.symbols.kind? s) :
    WellFormed { g with symbols := table } where
  admits := by
    intro p hp
    obtain ⟨hlhs, hrhs⟩ := h.admits p hp
    refine ⟨(hkind _ (Or.inl ⟨p, hp, Or.inl rfl⟩)).trans hlhs, ?_⟩
    intro s hs
    rw [SymbolTable.contains_congr (hkind s (Or.inl ⟨p, hp, Or.inr hs⟩))]
    exact hrhs s hs
  issued := by
    intro p hp
    obtain ⟨howner, hserial⟩ := h.issued p hp
    exact ⟨howner.trans hid.symm, hserial⟩
  distinct := h.distinct
  start := fun s hs => (hkind s (Or.inr hs)).trans (h.start s hs)

theorem of_mem_ids {i : Production.Id} (h : g.WellFormed) (hi : i ∈ g.ids) :
    i.owner = g.id ∧ i.serial < g.nextSerial := by
  obtain ⟨p, hp, rfl⟩ := List.mem_map.mp hi
  exact h.issued p hp

theorem contains_of_uses (h : g.WellFormed) (hs : g.Uses s) : g.symbols.contains s = true := by
  rcases hs with ⟨p, hp, rfl | hs⟩ | hs
  · exact SymbolTable.contains_of_kind? (h.admits p hp).1
  · exact (h.admits p hp).2 s hs
  · exact SymbolTable.contains_of_kind? (h.start s hs)

/-! ### Symbols -/

theorem addSymbol (h : g.WellFormed) (kind : Symbol.Kind) (name : String) :
    (g.addSymbol kind name).2.WellFormed := by
  refine h.of_symbols rfl fun s hs => SymbolTable.kind?_congr ?_
  refine (SymbolTable.lookup?_add g.symbols kind name s).trans (if_neg ?_)
  rintro rfl
  exact Nat.lt_irrefl _ (SymbolTable.lt_of_contains (h.contains_of_uses hs)).2

theorem addSymbols (h : g.WellFormed) (kind : Symbol.Kind) (names : List String) :
    (g.addSymbols kind names).2.WellFormed := by
  induction names generalizing g with
  | nil => exact h
  | cons name names ih => exact ih (h.addSymbol kind name)

theorem renameSymbol {name : String} (h : g.WellFormed)
    (hok : g.renameSymbol s name = .ok g') : g'.WellFormed := by
  obtain ⟨-, rfl⟩ := grant_eq_ok_iff.mp hok
  cases hr : g.symbols.rename? s name with
  | none => exact h
  | some table =>
      refine h.of_symbols (SymbolTable.id_of_rename? hr) fun t _ => ?_
      rw [Option.getD_some, SymbolTable.kind?, SymbolTable.lookup?_rename hr, SymbolTable.kind?]
      split
      · rename_i hts
        rw [hts, Option.map_map]
        rfl
      · rfl

theorem eraseSymbol (h : g.WellFormed) (hok : g.eraseSymbol s = .ok (some g')) :
    g'.WellFormed := by
  unfold Grammar.eraseSymbol at hok
  split at hok
  · cases hok
  · rename_i table herase
    obtain ⟨hfault, hsome⟩ := grant_eq_ok_iff.mp hok
    cases hsome
    refine h.of_symbols (SymbolTable.id_of_erase? herase) fun t ht => SymbolTable.kind?_congr ?_
    rw [SymbolTable.lookup?_erase herase, if_neg]
    rintro rfl
    exact eraseFault?_eq_none_iff.mp hfault ht

theorem setStart (h : g.WellFormed) (hok : g.setStart s = .ok g') : g'.WellFormed := by
  obtain ⟨hfault, rfl⟩ := grant_eq_ok_iff.mp hok
  refine ⟨h.admits, h.issued, h.distinct, ?_⟩
  rintro t ⟨⟩
  exact nonterminalFault?_eq_none_iff.mp hfault

theorem clearStart (h : g.WellFormed) : g.clearStart.WellFormed :=
  ⟨h.admits, h.issued, h.distinct, by rintro s ⟨⟩⟩

/-! ### Productions -/

theorem addProduction {label : String} {lhs : Symbol} {rhs : List Symbol} {id : Production.Id}
    (h : g.WellFormed) (hok : g.addProduction label lhs rhs = .ok (id, g')) : g'.WellFormed := by
  obtain ⟨hfault, heq⟩ := grant_eq_ok_iff.mp hok
  obtain ⟨-, rfl⟩ := Prod.mk.inj heq
  have hnew := ruleFault?_eq_none_iff.mp hfault
  refine ⟨?_, ?_, ?_, h.start⟩
  · intro p hp
    rcases List.mem_append.mp hp with hp | hp
    · exact h.admits p hp
    · rw [List.mem_singleton.mp hp]
      exact hnew
  · intro p hp
    rcases List.mem_append.mp hp with hp | hp
    · exact ⟨(h.issued p hp).1, Nat.lt_succ_of_lt (h.issued p hp).2⟩
    · rw [List.mem_singleton.mp hp]
      exact ⟨rfl, Nat.lt_succ_self _⟩
  · rw [List.map_append, List.map_singleton, List.nodup_append_comm]
    refine List.nodup_cons.mpr ⟨?_, h.distinct⟩
    intro hmem
    obtain ⟨p, hp, heq⟩ := List.mem_map.mp hmem
    have hserial := (h.issued p hp).2
    rw [heq] at hserial
    exact Nat.lt_irrefl _ hserial

theorem eraseProduction? {id : Production.Id} (h : g.WellFormed)
    (hsome : g.eraseProduction? id = some g') : g'.WellFormed := by
  obtain ⟨_, -, rfl⟩ := Option.map_eq_some_iff.mp hsome
  have hsub : (g.productions.eraseP (·.id = id)).Sublist g.productions := List.eraseP_sublist
  exact ⟨fun p hp => h.admits p (hsub.subset hp), fun p hp => h.issued p (hsub.subset hp),
    h.distinct.sublist (hsub.map _), h.start⟩

/-- A change of productions that keeps their IDs and yields admitted rules. -/
theorem mapProduction {id : Production.Id} {f : Production → Production} (h : g.WellFormed)
    (hid : ∀ p, (f p).id = p.id) (hf : ∀ p, g.Admits p.toRule → g.Admits (f p).toRule) :
    (g.mapProduction id f).WellFormed := by
  refine ⟨?_, ?_, ?_, h.start⟩
  · intro p hp
    obtain ⟨q, hq, rfl⟩ := List.mem_map.mp hp
    split
    · exact hf q (h.admits q hq)
    · exact h.admits q hq
  · intro p hp
    obtain ⟨q, hq, rfl⟩ := List.mem_map.mp hp
    split
    · rw [hid]
      exact h.issued q hq
    · exact h.issued q hq
  · have hids : (g.mapProduction id f).productions.map (·.id) = g.productions.map (·.id) :=
      ids_mapProduction hid
    rw [hids]
    exact h.distinct

theorem setLhs {id : Production.Id} {lhs : Symbol} (h : g.WellFormed)
    (hok : g.setLhs id lhs = .ok g') : g'.WellFormed := by
  obtain ⟨hfault, rfl⟩ := grant_eq_ok_iff.mp hok
  rw [Option.orElse_eq_orElse, Option.orElse_eq_or, Option.or_eq_none_iff] at hfault
  have hlhs := nonterminalFault?_eq_none_iff.mp hfault.1
  exact h.mapProduction (fun _ => rfl) fun p hp => ⟨hlhs, hp.2⟩

theorem setRhs {id : Production.Id} {rhs : List Symbol} (h : g.WellFormed)
    (hok : g.setRhs id rhs = .ok g') : g'.WellFormed := by
  obtain ⟨hfault, rfl⟩ := grant_eq_ok_iff.mp hok
  rw [Option.orElse_eq_orElse, Option.orElse_eq_or, Option.or_eq_none_iff] at hfault
  have hrhs := rhsFault?_eq_none_iff.mp hfault.1
  exact h.mapProduction (fun _ => rfl) fun p hp => ⟨hp.1, hrhs⟩

theorem setLabel {id : Production.Id} {label : String} (h : g.WellFormed)
    (hok : g.setLabel id label = .ok g') : g'.WellFormed := by
  obtain ⟨-, rfl⟩ := grant_eq_ok_iff.mp hok
  exact h.mapProduction (fun _ => rfl) fun _ hp => hp

end WellFormed

end Grammar

end TopDown
