import Mathlib.Data.List.Find
import TopDown.Proofs.Transform.FreshName

/-!
# Symbol tables and their creation logs

What a table answers about a handle depends on nothing but the changes it was asked for and the
answers it gave: which handles it issued, which of them it renamed, and which it erased.

* `Change.apply` is a change with its answer, and `Change.events` what the two together tell.
  `serve` makes changes in turn and collects the log of events.
* `Live`, `kindIn`, `nameIn` and `issuedIn` read the log, without a table.
* `Records log table`: the table answers as the log does. `records_apply` is the step.
* `serve_refines_log`: the answers of every table that changes lead to are those of its log.
-/

namespace TopDown.SymbolTable

variable {table : SymbolTable} {s t : Symbol} {kind : Symbol.Kind} {name : String}

/-! ## Changes and what they tell -/

inductive Change where
  | add (kind : Symbol.Kind) (name : String)
  | addAll (kind : Symbol.Kind) (names : List String)
  | rename (s : Symbol) (name : String)
  | erase (s : Symbol)
deriving DecidableEq, Repr

inductive Answer where
  | issued (symbols : List Symbol)
  /-- Whether there was such a symbol. -/
  | found (live : Bool)
deriving DecidableEq, Repr

/-- Something that happened to a symbol. -/
inductive Event where
  | issued (s : Symbol) (kind : Symbol.Kind) (name : String)
  | renamed (s : Symbol) (name : String)
  | erased (s : Symbol)
deriving DecidableEq, Repr

namespace Change

def apply (table : SymbolTable) : Change → SymbolTable × Answer
  | add kind name => ((table.add kind name).2, .issued [(table.add kind name).1])
  | addAll kind names => ((table.addAll kind names).2, .issued (table.addAll kind names).1)
  | rename s name => ((table.rename? s name).getD table, .found (table.rename? s name).isSome)
  | erase s => ((table.erase? s).getD table, .found (table.erase? s).isSome)

/-- What a change and the answer to it tell. A request for a symbol that is not live tells
nothing. -/
def events : Change → Answer → List Event
  | add kind name, .issued symbols => symbols.map (.issued · kind name)
  | addAll kind names, .issued symbols => symbols.zipWith (.issued · kind ·) names
  | rename s name, .found true => [.renamed s name]
  | erase s, .found true => [.erased s]
  | _, _ => []

end Change

/-- Makes changes in turn, and logs what happens. -/
def serve (table : SymbolTable) : List Change → SymbolTable × List Event
  | [] => (table, [])
  | change :: changes =>
    let (changed, answer) := change.apply table
    let (last, log) := changed.serve changes
    (last, change.events answer ++ log)

/-! ## Reading a log -/

def Event.symbol? : Event → Option Symbol
  | issued s _ _ => some s
  | _ => none

def Event.kind? (s : Symbol) : Event → Option Symbol.Kind
  | issued t kind _ => if t = s then some kind else none
  | _ => none

def Event.name? (s : Symbol) : Event → Option String
  | issued t _ name => if t = s then some name else none
  | renamed t name => if t = s then some name else none
  | erased _ => none

def issuedIn (log : List Event) : List Symbol := log.filterMap (·.symbol?)

/-- The symbol was issued and not erased since. -/
def Live (log : List Event) (s : Symbol) : Prop :=
  ∃ before kind name after, log = before ++ .issued s kind name :: after ∧ .erased s ∉ after

def kindIn (log : List Event) (s : Symbol) : Option Symbol.Kind := log.findSome? (·.kind? s)

/-- The name that a symbol was given last. -/
def nameIn (log : List Event) (s : Symbol) : Option String := log.reverse.findSome? (·.name? s)

variable {log events : List Event}

theorem issuedIn_append : issuedIn (log ++ events) = issuedIn log ++ issuedIn events :=
  List.filterMap_append

theorem kindIn_append : kindIn (log ++ events) s = (kindIn log s).or (kindIn events s) :=
  List.findSome?_append

theorem nameIn_append : nameIn (log ++ events) s = (nameIn events s).or (nameIn log s) := by
  rw [nameIn, List.reverse_append, List.findSome?_append]
  rfl

theorem mem_issuedIn_iff : s ∈ issuedIn log ↔ ∃ kind name, .issued s kind name ∈ log := by
  simp only [issuedIn, List.mem_filterMap]
  constructor
  · rintro ⟨event, hevent, hs⟩
    cases event with
    | issued t kind name =>
        cases hs
        exact ⟨kind, name, hevent⟩
    | renamed t name => cases hs
    | erased t => cases hs
  · rintro ⟨kind, name, hevent⟩
    exact ⟨_, hevent, rfl⟩

/-- A symbol that was not issued has no kind. -/
theorem kindIn_eq_none (hs : s ∉ issuedIn log) : kindIn log s = none := by
  refine List.findSome?_eq_none_iff.mpr fun event hevent => ?_
  cases event with
  | issued t kind name =>
      refine if_neg ?_
      rintro rfl
      exact hs (mem_issuedIn_iff.mpr ⟨kind, name, hevent⟩)
  | renamed t name => rfl
  | erased t => rfl

/-- What was live stays live until it is erased, and more becomes live if more is issued. -/
theorem live_append_iff : Live (log ++ events) s ↔
    (Live log s ∧ .erased s ∉ events) ∨ Live events s := by
  constructor
  · rintro ⟨before, kind, name, after, hsplit, hafter⟩
    rcases List.append_eq_append_iff.mp hsplit with ⟨rest, rfl, hevents⟩ | ⟨rest, rfl, hrest⟩
    · exact Or.inr ⟨rest, kind, name, after, hevents, hafter⟩
    · rcases List.cons_eq_append_iff.mp hrest with ⟨rfl, hevents⟩ | ⟨rest, rfl, rfl⟩
      · exact Or.inr ⟨[], kind, name, after, hevents, hafter⟩
      · rw [List.mem_append, not_or] at hafter
        exact Or.inl ⟨⟨before, kind, name, rest, rfl, hafter.1⟩, hafter.2⟩
  · rintro (⟨⟨before, kind, name, after, rfl, hafter⟩, hevents⟩ | h)
    · refine ⟨before, kind, name, after ++ events, by simp, ?_⟩
      rw [List.mem_append, not_or]
      exact ⟨hafter, hevents⟩
    · obtain ⟨before, kind, name, after, rfl, hafter⟩ := h
      exact ⟨log ++ before, kind, name, after, by simp, hafter⟩

theorem live_singleton_iff {event : Event} : Live [event] s ↔ event.symbol? = some s := by
  constructor
  · rintro ⟨before, kind, name, after, hsplit, -⟩
    rcases List.singleton_eq_append_iff.mp hsplit with ⟨-, hevent⟩ | ⟨-, hnil⟩
    · rw [← (List.cons_eq_cons.mp hevent).1]
      rfl
    · cases hnil
  · intro hs
    cases event with
    | issued t kind name =>
        cases hs
        exact ⟨[], kind, name, [], rfl, List.not_mem_nil⟩
    | renamed t name => cases hs
    | erased t => cases hs

/-! ## Tables that answer as their logs do -/

/-- The table answers as the log does. -/
structure Records (log : List Event) (table : SymbolTable) : Prop where
  /-- Symbols are issued at one index after another. -/
  issued : issuedIn log = (List.range table.size).map (Symbol.mk table.id)
  live : ∀ s, table.contains s = true ↔ Live log s
  kind : ∀ s, table.contains s = true → table.kind? s = kindIn log s
  name : ∀ s, table.contains s = true → table.name? s = nameIn log s
  gone : ∀ s, .erased s ∈ log → s ∈ issuedIn log ∧ table.contains s = false

namespace Records

variable (h : Records log table)
include h

theorem mem_issuedIn_iff : s ∈ issuedIn log ↔ s.owner = table.id ∧ s.index < table.size := by
  obtain ⟨owner, index⟩ := s
  simp only [h.issued, List.mem_map, List.mem_range, Symbol.mk.injEq]
  constructor
  · rintro ⟨i, hi, rfl, rfl⟩
    exact ⟨rfl, hi⟩
  · rintro ⟨rfl, hi⟩
    exact ⟨index, hi, rfl, rfl⟩

theorem of_nothing : Records (log ++ []) table := by
  rw [List.append_nil]
  exact h

theorem add (kind : Symbol.Kind) (name : String) :
    Records (log ++ [.issued (table.add kind name).1 kind name]) (table.add kind name).2 := by
  -- The index is new: the log tells nothing of the symbol yet.
  have hnew : (table.add kind name).1 ∉ issuedIn log := fun hmem =>
    Nat.lt_irrefl _ (h.mem_issuedIn_iff.mp hmem).2
  have hlookup := lookup?_add table kind name
  refine ⟨?_, fun s => ?_, fun s hs => ?_, fun s hs => ?_, fun s hs => ?_⟩
  · rw [issuedIn_append, h.issued]
    simp [SymbolTable.add, size, List.range_succ, issuedIn, Event.symbol?]
  · rw [live_append_iff, live_singleton_iff, ← h.live, contains, hlookup]
    by_cases hs : s = (table.add kind name).1
    · simp [hs, Event.symbol?]
    · simp [hs, Ne.symm hs, Event.symbol?, contains]
  · rw [contains, hlookup] at hs
    rw [kindIn_append, kind?, hlookup]
    by_cases hnews : s = (table.add kind name).1
    · rw [hnews, kindIn_eq_none hnew]
      simp [kindIn, Event.kind?]
    · rw [if_neg hnews] at hs ⊢
      have hkind := h.kind s hs
      rw [kind?] at hkind
      simp [hkind, kindIn, Event.kind?, Ne.symm hnews]
  · rw [contains, hlookup] at hs
    rw [nameIn_append, name?, hlookup]
    by_cases hnews : s = (table.add kind name).1
    · simp [hnews, nameIn, Event.name?]
    · rw [if_neg hnews] at hs ⊢
      have hname := h.name s hs
      rw [name?] at hname
      simp [hname, nameIn, Event.name?, Ne.symm hnews]
  · obtain ⟨hissued, hgone⟩ := h.gone s (by simpa using hs)
    refine ⟨?_, ?_⟩
    · rw [issuedIn_append]
      exact List.mem_append_left _ hissued
    · rw [contains, hlookup, if_neg]
      · exact hgone
      · rintro rfl
        exact hnew hissued

theorem addAll (kind : Symbol.Kind) (names : List String) :
    Records (log ++ (table.addAll kind names).1.zipWith (.issued · kind ·) names)
      (table.addAll kind names).2 := by
  induction names generalizing table log with
  | nil => exact h.of_nothing
  | cons name names ih => simpa [SymbolTable.addAll] using ih (h.add kind name)

theorem rename {renamed : SymbolTable} (hok : table.rename? s name = some renamed) :
    Records (log ++ [.renamed s name]) renamed := by
  have hlookup := lookup?_rename hok
  obtain ⟨entry, hentry, hrenamed⟩ := Option.map_eq_some_iff.mp hok
  have hsize : renamed.size = table.size := by
    rw [← hrenamed]
    exact Array.size_setIfInBounds
  -- The symbol is live before and afterwards, and so is every other symbol.
  have hcontains : ∀ t, renamed.contains t = table.contains t := by
    intro t
    rw [contains, hlookup, contains]
    split
    · rename_i hts
      rw [hts, Option.isSome_map]
    · rfl
  have hissued : issuedIn (log ++ [.renamed s name]) = issuedIn log :=
    issuedIn_append.trans (List.append_nil _)
  refine ⟨?_, fun t => ?_, fun t ht => ?_, fun t ht => ?_, fun t ht => ?_⟩
  · rw [hissued, h.issued, hsize, id_of_rename? hok]
  · rw [live_append_iff, live_singleton_iff, ← h.live, hcontains]
    simp [Event.symbol?]
  · rw [hcontains] at ht
    have hkind : renamed.kind? t = table.kind? t := by
      rw [kind?, hlookup, kind?]
      split
      · rename_i hts
        rw [hts, Option.map_map]
        rfl
      · rfl
    rw [kindIn_append, hkind, h.kind t ht]
    exact (Option.or_none).symm
  · rw [hcontains] at ht
    rw [nameIn_append, name?, hlookup]
    by_cases hts : t = s
    · simp [hts, hentry, nameIn, Event.name?]
    · rw [if_neg hts]
      refine (h.name t ht).trans ?_
      simp [nameIn, Event.name?, Ne.symm hts]
  · rw [hissued, hcontains]
    exact h.gone t (by simpa using ht)

theorem erase {erased : SymbolTable} (hok : table.erase? s = some erased) :
    Records (log ++ [.erased s]) erased := by
  have hlookup := lookup?_erase hok
  have hsize : erased.size = table.size := by
    obtain ⟨entry, -, herased⟩ := Option.map_eq_some_iff.mp hok
    rw [← herased]
    exact Array.size_setIfInBounds
  -- What is live afterwards was live before, so the earlier events tell its kind and its name.
  have hlive : ∀ t, erased.contains t = true → t ≠ s ∧ table.contains t = true := by
    intro t ht
    rw [contains, hlookup] at ht
    split at ht
    · cases ht
    · exact ⟨‹t ≠ s›, ht⟩
  have hissued : issuedIn (log ++ [.erased s]) = issuedIn log :=
    issuedIn_append.trans (List.append_nil _)
  refine ⟨?_, fun t => ?_, fun t ht => ?_, fun t ht => ?_, fun t ht => ?_⟩
  · rw [hissued, h.issued, hsize, id_of_erase? hok]
  · rw [live_append_iff, live_singleton_iff, ← h.live, contains, hlookup]
    by_cases hts : t = s
    · simp [hts, Event.symbol?]
    · simp [hts, Event.symbol?, contains]
  · obtain ⟨hts, ht⟩ := hlive t ht
    rw [kindIn_append, kind?, hlookup, if_neg hts]
    exact (h.kind t ht).trans (Option.or_none).symm
  · obtain ⟨hts, ht⟩ := hlive t ht
    rw [nameIn_append, name?, hlookup, if_neg hts]
    exact h.name t ht
  · rw [hissued, contains, hlookup]
    by_cases hts : t = s
    · obtain ⟨entry, hentry, -⟩ := Option.map_eq_some_iff.mp hok
      rw [if_pos hts, hts, h.mem_issuedIn_iff]
      exact ⟨lt_of_lookup? hentry, rfl⟩
    · rw [if_neg hts]
      exact h.gone t (by simpa [hts] using ht)

/-- A change and what it tells keep table and log in step. -/
theorem apply (change : Change) :
    Records (log ++ change.events (change.apply table).2) (change.apply table).1 := by
  cases change with
  | add kind name => exact h.add kind name
  | addAll kind names => exact h.addAll kind names
  | rename s name =>
      rw [Change.apply]
      cases hok : table.rename? s name with
      | none => exact h.of_nothing
      | some renamed => exact h.rename hok
  | erase s =>
      rw [Change.apply]
      cases hok : table.erase? s with
      | none => exact h.of_nothing
      | some erased => exact h.erase hok

theorem serve (changes : List Change) :
    Records (log ++ (table.serve changes).2) (table.serve changes).1 := by
  induction changes generalizing table log with
  | nil => exact h.of_nothing
  | cons change changes ih => simpa [SymbolTable.serve] using ih (h.apply change)

/-! ### Enumerations -/

/-- A live symbol has one of the two kinds. -/
theorem nonterminals_eq : table.nonterminals =
    table.symbols.filter fun s => !(kindIn log s == some .terminal) := by
  refine List.filter_congr fun s hs => ?_
  have hlive := mem_symbols.mp hs
  obtain ⟨kind, hkind⟩ := contains_iff_kind?.mp hlive
  rw [← h.kind s hlive, hkind]
  cases kind <;> rfl

end Records

/-! ## Numbers and names -/

theorem map_lookup?_range (table : SymbolTable) :
    (List.range table.size).map (fun i => table.lookup? ⟨table.id, i⟩) = table.entries.toList := by
  refine List.ext_getElem (by simp [size]) fun i hi _ => ?_
  have hi : i < table.entries.size := by simpa [size] using hi
  simp [lookup?, hi]

/-- The number of live symbols is the length of their list. -/
theorem liveCount_eq (table : SymbolTable) : table.liveCount = table.symbols.length := by
  rw [liveCount, ← Array.countP_toList, ← map_lookup?_range, symbols,
    ← List.countP_eq_length_filter, List.countP_map, List.countP_map]
  rfl

end TopDown.SymbolTable
