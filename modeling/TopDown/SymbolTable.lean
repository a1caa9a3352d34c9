import TopDown.Symbol

/-!
# Symbol tables

A symbol table issues symbols and keeps their kinds and names. A symbol that is erased leaves a
hole behind: its index is never issued again, so a stale handle is told apart from one that was
never issued. Names need not be unique and may be empty.

* `SymbolTable.add`, `rename?` and `erase?` are the only changes; the last two answer `none` for
  a handle that is not live.
* `SymbolTable.contains` holds for live handles, `issued` for live and erased ones.
* `SymbolTable.symbols` lists the live handles in creation order; `terminals` and `nonterminals`
  are its two parts.
* `SymbolTable.lookup?_add`, `lookup?_rename` and `lookup?_erase` say what each change does to the
  entry of each handle.
-/

namespace TopDown

/-- What a table knows about a live symbol. -/
structure SymbolTable.Entry where
  name : String
  kind : Symbol.Kind
deriving DecidableEq, Repr

/-- The symbols that one owner has issued, by index. An erased symbol has no entry. -/
structure SymbolTable where
  id : Identity
  entries : Array (Option SymbolTable.Entry) := #[]
deriving DecidableEq, Repr

namespace SymbolTable

/-! ## Lookup -/

/-- The number of indices in use, those of erased symbols included. -/
def size (table : SymbolTable) : Nat := table.entries.size

def lookup? (table : SymbolTable) (s : Symbol) : Option Entry :=
  if s.owner = table.id then table.entries[s.index]?.join else none

def contains (table : SymbolTable) (s : Symbol) : Bool := (table.lookup? s).isSome

/-- Whether this table has issued a handle, erased since or not. -/
def issued (table : SymbolTable) (s : Symbol) : Bool :=
  s.owner = table.id && s.index < table.size

def kind? (table : SymbolTable) (s : Symbol) : Option Symbol.Kind := (table.lookup? s).map (·.kind)

def name? (table : SymbolTable) (s : Symbol) : Option String := (table.lookup? s).map (·.name)

def isNameTaken (table : SymbolTable) (name : String) : Bool :=
  table.entries.any fun entry => entry.any (·.name == name)

/-! ## Enumeration -/

def symbols (table : SymbolTable) : List Symbol :=
  ((List.range table.size).map (Symbol.mk table.id)).filter table.contains

def ofKind (table : SymbolTable) (kind : Symbol.Kind) : List Symbol :=
  table.symbols.filter fun s => table.kind? s == some kind

def terminals (table : SymbolTable) : List Symbol := table.ofKind .terminal

def nonterminals (table : SymbolTable) : List Symbol := table.ofKind .nonterminal

def liveCount (table : SymbolTable) : Nat := table.entries.countP (·.isSome)

def isEmpty (table : SymbolTable) : Bool := table.liveCount == 0

/-- The first live symbol that has a name, in creation order. -/
def find? (table : SymbolTable) (name : String) : Option Symbol :=
  table.symbols.find? fun s => table.name? s == some name

/-! ## Changes -/

def add (table : SymbolTable) (kind : Symbol.Kind) (name : String) : Symbol × SymbolTable :=
  (⟨table.id, table.size⟩, { table with entries := table.entries.push (some ⟨name, kind⟩) })

def addAll (table : SymbolTable) (kind : Symbol.Kind) : List String → List Symbol × SymbolTable
  | [] => ([], table)
  | name :: names =>
    let (s, table) := table.add kind name
    let (rest, table) := table.addAll kind names
    (s :: rest, table)

def rename? (table : SymbolTable) (s : Symbol) (name : String) : Option SymbolTable :=
  (table.lookup? s).map fun entry =>
    { table with entries := table.entries.setIfInBounds s.index (some { entry with name }) }

/-- Erases a live symbol. Its index stays in use. -/
def erase? (table : SymbolTable) (s : Symbol) : Option SymbolTable :=
  (table.lookup? s).map fun _ =>
    { table with entries := table.entries.setIfInBounds s.index none }

/-- The same entries, erased ones included, under another identity. -/
def fork (table : SymbolTable) (id : Identity) : SymbolTable := { table with id }

/-! ## What each change does to the entries -/

theorem lookup?_add (table : SymbolTable) (kind : Symbol.Kind) (name : String) (s : Symbol) :
    (table.add kind name).2.lookup? s =
      if s = (table.add kind name).1 then some ⟨name, kind⟩ else table.lookup? s := by
  obtain ⟨owner, index⟩ := s
  by_cases ho : owner = table.id
  · by_cases hi : index = table.size
    · simp [lookup?, add, ho, hi, size]
    · have hi' : index ≠ table.entries.size := hi
      simp [lookup?, add, ho, hi, Array.getElem?_push, hi']
  · simp [lookup?, add, ho]

theorem lt_of_lookup? {table : SymbolTable} {s : Symbol} {entry : Entry}
    (h : table.lookup? s = some entry) : s.owner = table.id ∧ s.index < table.size := by
  unfold lookup? at h
  split at h
  · rename_i ho
    refine ⟨ho, ?_⟩
    by_cases hi : s.index < table.size
    · exact hi
    · rw [Array.getElem?_eq_none (Nat.not_lt.1 hi)] at h
      cases h
  · cases h

theorem lookup?_rename {table renamed : SymbolTable} {s : Symbol} {name : String}
    (h : table.rename? s name = some renamed) (t : Symbol) :
    renamed.lookup? t =
      if t = s then (table.lookup? s).map fun entry => { entry with name }
      else table.lookup? t := by
  simp only [rename?, Option.map_eq_some_iff] at h
  obtain ⟨entry, he, rfl⟩ := h
  obtain ⟨ho, hi⟩ := lt_of_lookup? he
  by_cases hts : t = s
  · subst hts
    rw [if_pos rfl, he]
    simp [lookup?, ho, size] at hi ⊢
    simp [hi]
  · rw [if_neg hts]
    by_cases ht : t.owner = table.id
    · have : s.index ≠ t.index := by
        intro heq
        exact hts (by cases s; cases t; simp_all)
      simp [lookup?, ht, this]
    · simp [lookup?, ht]

theorem lookup?_erase {table erased : SymbolTable} {s : Symbol}
    (h : table.erase? s = some erased) (t : Symbol) :
    erased.lookup? t = if t = s then none else table.lookup? t := by
  simp only [erase?, Option.map_eq_some_iff] at h
  obtain ⟨entry, he, rfl⟩ := h
  obtain ⟨ho, hi⟩ := lt_of_lookup? he
  by_cases hts : t = s
  · subst hts
    rw [if_pos rfl]
    simp only [lookup?, ho, size] at hi ⊢
    simp [hi]
  · rw [if_neg hts]
    by_cases ht : t.owner = table.id
    · have : s.index ≠ t.index := by
        intro heq
        exact hts (by cases s; cases t; simp_all)
      simp [lookup?, ht, this]
    · simp [lookup?, ht]

theorem mem_symbols {table : SymbolTable} {s : Symbol} :
    s ∈ table.symbols ↔ table.contains s = true := by
  simp only [symbols, List.mem_filter, List.mem_map, List.mem_range, and_iff_right_iff_imp]
  intro h
  obtain ⟨entry, he⟩ := Option.isSome_iff_exists.1 h
  obtain ⟨ho, hi⟩ := lt_of_lookup? he
  exact ⟨s.index, hi, by rw [← ho]⟩

end SymbolTable

end TopDown
