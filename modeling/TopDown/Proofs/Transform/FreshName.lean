import Mathlib.Data.List.Nodup
import Mathlib.Order.Bounds.Basic
import TopDown.Proofs.Grammar.WellFormed
import TopDown.Transform.FreshName

/-!
# Fresh names are free

A table has as many names as live symbols. So among a taken name and as many numbered names as
there are live symbols, all of them different, one is free, and the search for a fresh name finds
it.

* `SymbolTable.isNameTaken_iff`: a name is taken if it is the name of a live symbol.
* `SymbolTable.isLeast_of_freeNumber?`: no smaller number than the one that is found makes the name
  free, however many are tried.
* `SymbolTable.isNameTaken_freshName`: a fresh name is not taken.
-/

namespace TopDown.SymbolTable

variable {table : SymbolTable} {name : String}

def names (table : SymbolTable) : List String :=
  table.entries.toList.filterMap fun entry => entry.map (·.name)

theorem length_names : table.names.length = table.liveCount := by
  rw [names, List.length_filterMap_eq_countP, liveCount, ← Array.countP_toList]
  simp only [Option.isSome_map]

theorem mem_names_iff : name ∈ table.names ↔ table.isNameTaken name = true := by
  simp only [names, List.mem_filterMap, Option.map_eq_some_iff, isNameTaken, ← Array.any_toList,
    List.any_eq_true, Option.any_eq_true, beq_iff_eq]

theorem isNameTaken_iff : table.isNameTaken name = true ↔ ∃ s, table.name? s = some name := by
  rw [← mem_names_iff]
  simp only [names, List.mem_filterMap, name?, Option.map_eq_some_iff]
  constructor
  · rintro ⟨_, hmem, entry, rfl, rfl⟩
    obtain ⟨i, hi, hentry⟩ := List.getElem_of_mem hmem
    refine ⟨⟨table.id, i⟩, entry, ?_, rfl⟩
    rw [lookup?, if_pos rfl, Array.getElem?_eq_getElem hi, ← Array.getElem_toList, hentry]
    rfl
  · rintro ⟨s, entry, hs, rfl⟩
    refine ⟨some entry, ?_, entry, rfl, rfl⟩
    have hi := (lt_of_lookup? hs).2
    rw [lookup?, if_pos (lt_of_lookup? hs).1, Array.getElem?_eq_getElem hi] at hs
    rw [← show table.entries[s.index] = some entry from hs, ← Array.getElem_toList hi]
    exact List.getElem_mem _

theorem isNameTaken_eq_false_iff :
    table.isNameTaken name = false ↔ ∀ s, table.name? s ≠ some name := by
  rw [← Bool.not_eq_true, isNameTaken_iff, not_exists]

theorem isNameTaken_congr {other : SymbolTable} (h : ∀ s, other.lookup? s = table.lookup? s)
    (name : String) : other.isNameTaken name = table.isNameTaken name := by
  rw [Bool.eq_iff_iff, isNameTaken_iff, isNameTaken_iff]
  simp only [name?, h]

/-! ## The search for a free number -/

/-- A name and the numbered names that are tried after it. -/
def candidates (table : SymbolTable) (name : String) : List String :=
  name :: (List.range' 2 table.liveCount).map fun n => name ++ toString n

theorem nodup_candidates : (table.candidates name).Nodup := by
  refine List.nodup_cons.mpr ⟨fun hmem => ?_, List.Nodup.map (fun m n heq => ?_) List.nodup_range'⟩
  · obtain ⟨n, -, hn⟩ := List.mem_map.mp hmem
    have hempty : toString n = "" := String.append_eq_left_iff.mp hn
    simp at hempty
  · -- Two numbers with the same digits are the same.
    have htext : toString m = toString n := (String.append_right_inj name).mp heq
    rw [Nat.toString_eq_ofList_toDigits, Nat.toString_eq_ofList_toDigits] at htext
    have hdigits : Nat.toDigits 10 m = Nat.toDigits 10 n := String.ofList_inj.mp htext
    rw [← Nat.ofDigitChars_ten_toDigits (n := m), hdigits, Nat.ofDigitChars_ten_toDigits]

/-- There are more candidates than names. -/
theorem exists_mem_candidates (name : String) :
    ∃ candidate ∈ table.candidates name, table.isNameTaken candidate = false := by
  by_contra hnone
  push Not at hnone
  have hsubset : table.candidates name ⊆ table.names := fun candidate hmem =>
    mem_names_iff.mpr (by simpa using hnone candidate hmem)
  have hlength := nodup_candidates.length_le_of_subset hsubset
  rw [length_names, candidates, List.length_cons, List.length_map, List.length_range'] at hlength
  exact Nat.not_succ_le_self _ hlength

theorem freeNumber?_of_isNameTaken (h : table.isNameTaken name = true) :
    ∃ n, table.freeNumber? name = some n ∧ table.isNameTaken (name ++ toString n) = false := by
  obtain ⟨candidate, hmem, hfree⟩ := table.exists_mem_candidates name
  rcases List.mem_cons.mp hmem with rfl | hmem
  · rw [h] at hfree
    cases hfree
  · obtain ⟨n, hn, rfl⟩ := List.mem_map.mp hmem
    have hsome : (table.freeNumber? name).isSome = true :=
      List.find?_isSome.mpr ⟨n, hn, by rw [hfree, Bool.not_false]⟩
    obtain ⟨m, hm⟩ := Option.isSome_iff_exists.mp hsome
    exact ⟨m, hm, by simpa using List.find?_some hm⟩

/-- A number that is found is the least that makes the name free; the bound of the search does not
matter. -/
theorem isLeast_of_freeNumber? {n : Nat} (h : table.freeNumber? name = some n) :
    IsLeast {k | 2 ≤ k ∧ table.isNameTaken (name ++ toString k) = false} n := by
  obtain ⟨hfree, hmem, hbefore⟩ := List.find?_range'_eq_some.mp h
  refine ⟨⟨(List.mem_range'_1.mp hmem).1, by simpa using hfree⟩, ?_⟩
  rintro k ⟨hk, hfree'⟩
  by_contra hlt
  have htaken := hbefore k hk (Nat.lt_of_not_le hlt)
  rw [hfree'] at htaken
  cases htaken

/-- **Fresh names are free.** -/
theorem isNameTaken_freshName (table : SymbolTable) (base suffix : String) :
    table.isNameTaken (table.freshName base suffix) = false := by
  unfold freshName
  dsimp only
  split
  · rename_i htaken
    obtain ⟨n, hn, hfree⟩ := freeNumber?_of_isNameTaken htaken
    rw [hn]
    exact hfree
  · rename_i hfree
    exact Bool.eq_false_iff.mpr hfree

end TopDown.SymbolTable
