import Mathlib.Data.Set.Function
import TopDown.Proofs.Isomorphism.Runs

/-!
# Isomorphic grammars

Two grammars are isomorphic if they are the same but for identities, erased symbols, serial
numbers, names, labels, start symbols, and the order of terminals among the other symbols.

* `Isomorphic φ g h`: `φ` takes the live symbols of `g` one to one to those of `h`, the nonterminals
  in creation order, and the production list position by position. `SameNames` says that names and
  labels are the same too.
* `Isomorphic.coupled`: isomorphic grammars can be transformed side by side.
* `Isomorphic.start`: the transformations begin abreast.
-/

namespace TopDown

open Relator

def Rule.rename (φ : Symbol → Symbol) (r : Rule) : Rule where
  lhs := φ r.lhs
  rhs := r.rhs.map φ

namespace Grammar

/-- The grammars are the same but for their symbols, which `φ` takes into one another. -/
structure Isomorphic (φ : Symbol → Symbol) (g h : Grammar) : Prop where
  live : Set.BijOn φ {s | g.symbols.contains s = true} {s | h.symbols.contains s = true}
  kind : ∀ s, g.symbols.contains s = true → h.symbols.kind? (φ s) = g.symbols.kind? s
  /-- Nonterminals come in the same order. -/
  order : ∀ s t, g.symbols.kind? s = some .nonterminal → g.symbols.kind? t = some .nonterminal →
    (s.index < t.index ↔ (φ s).index < (φ t).index)
  rules : h.system.rules = g.system.rules.map (Rule.rename φ)

/-- Symbols that go together have the same name, and the labels are the same. -/
structure SameNames (φ : Symbol → Symbol) (g h : Grammar) : Prop where
  names : ∀ s, g.symbols.contains s = true → h.symbols.name? (φ s) = g.symbols.name? s
  labels : h.productions.map (·.label) = g.productions.map (·.label)

/-- The symbols that go together on the way: a live symbol and its image, or two symbols that are
going to be issued at the same time. -/
def Pairs (φ : Symbol → Symbol) (g h : Grammar) (s s' : Symbol) : Prop :=
  (g.symbols.contains s = true ∧ s' = φ s) ∨
    ∃ k, s = ⟨g.id, g.symbols.size + k⟩ ∧ s' = ⟨h.id, h.symbols.size + k⟩

def SamePosition (g h : Grammar) (i i' : Production.Id) : Prop :=
  ∃ k : Nat, g.ids[k]? = some i ∧ h.ids[k]? = some i'

variable {φ : Symbol → Symbol} {g h : Grammar} {s s' : Symbol} {r : Rule}

theorem not_contains_next (g : Grammar) (k : Nat) :
    g.symbols.contains ⟨g.id, g.symbols.size + k⟩ ≠ true := fun hlive =>
  Nat.not_lt_of_le (Nat.le_add_right _ k) (SymbolTable.lt_of_contains hlive).2

theorem Pairs.of_live (hs : g.symbols.contains s = true) : Pairs φ g h s (φ s) := Or.inl ⟨hs, rfl⟩

theorem Pairs.eq_of_live (hs : g.symbols.contains s = true) (hss : Pairs φ g h s s') :
    s' = φ s := by
  rcases hss with ⟨-, heq⟩ | ⟨k, rfl, -⟩
  · exact heq
  · exact absurd hs (g.not_contains_next k)

namespace SameNames

/-- Live symbols that go together are shown alike. -/
theorem displayName_eq (hnames : SameNames φ g h) (hs : g.symbols.contains s = true) :
    h.displayName (φ s) = g.displayName s := by
  have hname := (hnames.names s hs).trans (name?_eq_some_displayName hs)
  rw [displayName, hname]
  rfl

end SameNames

namespace Isomorphic

section

variable (hiso : Isomorphic φ g h)
include hiso

theorem contains_image (hs : g.symbols.contains s = true) : h.symbols.contains (φ s) = true :=
  hiso.live.mapsTo hs

theorem biUnique_pairs : BiUnique (Pairs φ g h) := by
  constructor
  · rintro s t s' (⟨hs, rfl⟩ | ⟨k, rfl, rfl⟩) (⟨ht, heq⟩ | ⟨m, rfl, heq⟩)
    · exact hiso.live.injOn hs ht heq
    · exact absurd (heq ▸ hiso.contains_image hs) (h.not_contains_next m)
    · exact absurd (heq ▸ hiso.contains_image ht) (h.not_contains_next k)
    · have hindex : h.symbols.size + k = h.symbols.size + m := congrArg Symbol.index heq
      rw [Nat.add_left_cancel hindex]
  · rintro s s' t' (⟨hs, rfl⟩ | ⟨k, rfl, rfl⟩) ht
    · exact (ht.eq_of_live hs).symm
    · rcases ht with ⟨hs, -⟩ | ⟨m, heq, rfl⟩
      · exact absurd hs (g.not_contains_next k)
      · have hindex : g.symbols.size + k = g.symbols.size + m := congrArg Symbol.index heq
        rw [Nat.add_left_cancel hindex]

/-- Nonterminals that go together, listed in creation order on both sides, go together in order. -/
theorem eq_map_of_pairwise {xs ys : List Symbol} (hxs : xs.Pairwise (·.index < ·.index))
    (hys : ys.Pairwise (·.index < ·.index)) (hkind : ∀ s ∈ xs, s ∈ g.symbols.nonterminals)
    (hmem : ∀ s', s' ∈ ys ↔ ∃ s ∈ xs, φ s = s') : ys = xs.map φ := by
  have hsorted : (xs.map φ).Pairwise (·.index < ·.index) := by
    refine List.pairwise_map.mpr (hxs.imp_of_mem fun {s t} hs ht hlt => ?_)
    exact (hiso.order s t (SymbolTable.mem_nonterminals_iff.mp (hkind s hs))
      (SymbolTable.mem_nonterminals_iff.mp (hkind t ht))).mp hlt
  have hperm : ys.Perm (xs.map φ) := by
    refine (List.perm_ext_iff_of_nodup (Symbol.nodup_of_pairwise hys)
      (Symbol.nodup_of_pairwise hsorted)).mpr fun s' => ?_
    rw [hmem, List.mem_map]
  refine hperm.eq_of_pairwise (fun s t _ _ hst hts => ?_) hys hsorted
  exact absurd (Nat.lt_trans hst hts) (Nat.lt_irrefl _)

theorem nonterminals_eq : h.symbols.nonterminals = g.symbols.nonterminals.map φ := by
  refine hiso.eq_map_of_pairwise SymbolTable.pairwise_nonterminals
    SymbolTable.pairwise_nonterminals (fun _ hs => hs) fun s' => ?_
  constructor
  · intro hs'
    have hkind := SymbolTable.mem_nonterminals_iff.mp hs'
    obtain ⟨s, hs, rfl⟩ := hiso.live.surjOn (SymbolTable.contains_of_kind? hkind)
    rw [hiso.kind s hs] at hkind
    exact ⟨s, SymbolTable.mem_nonterminals_iff.mpr hkind, rfl⟩
  · rintro ⟨s, hs, rfl⟩
    have hkind := SymbolTable.mem_nonterminals_iff.mp hs
    refine SymbolTable.mem_nonterminals_iff.mpr ?_
    rw [hiso.kind s (SymbolTable.contains_of_kind? hkind), hkind]

end

theorem match_rename (hr : g.Admits r) : Rule.Match (Pairs φ g h) r (r.rename φ) := by
  refine ⟨.of_live (SymbolTable.contains_of_kind? hr.1), ?_⟩
  rw [Rule.rename, List.forall₂_map_right_iff]
  exact List.forall₂_same.mpr fun s hs => .of_live (hr.2 s hs)

variable (hiso : Isomorphic φ g h) (hg : g.WellFormed)
include hiso hg

/-- **Isomorphic grammars can be transformed side by side.** -/
theorem coupled : Transform.Coupled (Pairs φ g h) g h where
  renames := by
    refine ⟨hiso.biUnique_pairs, ?_⟩
    rw [hiso.rules, List.forall₂_map_right_iff]
    refine List.forall₂_same.mpr fun r hr => ?_
    obtain ⟨q, hq, rfl⟩ := List.mem_map.mp hr
    exact match_rename (hg.admits q hq)
  left := fun s hs => ⟨φ s, .of_live hs⟩
  right := by
    intro s' hs'
    obtain ⟨s, hs, rfl⟩ := hiso.live.surjOn hs'
    exact ⟨s, .of_live hs⟩
  live := by
    rintro s s' (⟨hs, rfl⟩ | ⟨k, rfl, rfl⟩)
    · exact iff_of_true hs (hiso.contains_image hs)
    · exact iff_of_false (g.not_contains_next k) (h.not_contains_next k)
  nonterminals := by
    rw [hiso.nonterminals_eq, List.forall₂_map_right_iff]
    exact List.forall₂_same.mpr fun s hs =>
      .of_live (SymbolTable.contains_of_kind? (SymbolTable.mem_nonterminals_iff.mp hs))
  next := fun k => Or.inr ⟨k, rfl, rfl⟩

/-- The productions at the same position match. -/
theorem match_drafts {named : Prop} (hnames : named → SameNames φ g h) :
    List.Forall₂ (Draft.Match (Pairs φ g h) (SamePosition g h) named) g.drafts h.drafts := by
  have hrules := (hiso.coupled hg).renames.rules
  rw [system, system, List.forall₂_map_left_iff, List.forall₂_map_right_iff] at hrules
  obtain ⟨hlength, hget⟩ := List.forall₂_iff_get.mp hrules
  rw [drafts, drafts, List.forall₂_map_left_iff, List.forall₂_map_right_iff]
  refine List.forall₂_iff_get.mpr ⟨hlength, fun i hi hi' => ⟨hget i hi hi', ?_, fun hn => ?_⟩⟩
  · refine .some ⟨i, ?_, ?_⟩
    · simp [ids, hi]
    · simp [ids, hi']
  · have hlabels := congrArg (·[i]?) (hnames hn).labels
    simpa [hi, hi', Production.draft] using hlabels.symm

/-- **The transformations begin abreast.** -/
theorem start (hh : h.WellFormed) {named : Prop} (hnames : named → SameNames φ g h)
    (journal journal' : Array Event) :
    Transform.Abreast (Pairs φ g h) (SamePosition g h) named g h (.start g journal)
      (.start h journal') where
  tracks := .start hg journal
  tracks' := .start hh journal'
  drafts := hiso.match_drafts hg hnames
  helpers := .nil
  names := by
    rintro hn s s' (⟨hs, rfl⟩ | ⟨k, rfl, rfl⟩)
    · exact ((hnames hn).names s hs).symm
    · have hnone : ∀ f : Grammar, f.symbols.name? ⟨f.id, f.symbols.size + k⟩ = none := by
        intro f
        rw [SymbolTable.name?, Option.not_isSome_iff_eq_none.mp (f.not_contains_next k)]
        rfl
      exact (hnone g).trans (hnone h).symm

end Isomorphic

end Grammar

end TopDown
