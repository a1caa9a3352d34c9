import TopDown.Proofs.SymbolTable.CreationLog

/-!
# Probing for a free name

A fresh name may be looked for without a bound: one number after another is tried, from two on,
until a name is free. `Probes` is that search, with a count of the tries. It ends at the least
number that makes the name free, if there is one, and there is one within as many tries as the
table has live symbols.

* `SymbolTable.probes_iff`: where an unbounded search ends, and after how many tries.
* `SymbolTable.freshName_exact`: the fresh name is what the search arrives at.
-/

namespace TopDown.SymbolTable

variable {table : SymbolTable} {name : String} {k n tries : Nat}

/-- Numbers are tried from `k` on. All that come before `n` are taken, `n` is free, and that makes
`tries` numbers altogether. -/
inductive Probes (table : SymbolTable) (name : String) : Nat → Nat → Nat → Prop
  | hit {k : Nat} (free : table.isNameTaken (name ++ toString k) = false) : Probes table name k k 1
  | miss {k n tries : Nat} (taken : table.isNameTaken (name ++ toString k) = true)
      (rest : Probes table name (k + 1) n tries) : Probes table name k n (tries + 1)

theorem probes_of_forall {d : Nat}
    (htaken : ∀ j, k ≤ j → j < k + d → table.isNameTaken (name ++ toString j) = true)
    (hfree : table.isNameTaken (name ++ toString (k + d)) = false) :
    Probes table name k (k + d) (d + 1) := by
  induction d generalizing k with
  | zero => exact .hit hfree
  | succ d ih =>
      rw [← Nat.succ_add_eq_add_succ] at hfree ⊢
      have hfirst := htaken k (Nat.le_refl k) (by omega)
      exact .miss hfirst (ih (fun j hj hlt => htaken j (by omega) (by omega)) hfree)

/-- **An unbounded search ends at the least free number,** after all numbers up to it. -/
theorem probes_iff : Probes table name k n tries ↔
    IsLeast {j | k ≤ j ∧ table.isNameTaken (name ++ toString j) = false} n ∧
      tries + k = n + 1 := by
  constructor
  · intro h
    induction h with
    | @hit k free => exact ⟨⟨⟨Nat.le_refl k, free⟩, fun _ hj => hj.1⟩, Nat.add_comm 1 k⟩
    | @miss k n tries taken _ ih =>
        obtain ⟨⟨⟨hle, hfree⟩, hleast⟩, hcount⟩ := ih
        refine ⟨⟨⟨by omega, hfree⟩, ?_⟩, by omega⟩
        rintro j ⟨hj, hfree'⟩
        rcases Nat.eq_or_lt_of_le hj with rfl | hlt
        · rw [taken] at hfree'
          cases hfree'
        · exact hleast ⟨hlt, hfree'⟩
  · rintro ⟨⟨⟨hle, hfree⟩, hleast⟩, hcount⟩
    obtain ⟨d, rfl⟩ := Nat.exists_eq_add_of_le hle
    obtain rfl : tries = d + 1 := by omega
    refine probes_of_forall (fun j hj hlt => ?_) hfree
    by_contra hne
    exact absurd (hleast ⟨hj, Bool.eq_false_iff.mpr hne⟩) (Nat.not_le_of_lt hlt)

/-- **Fresh names are the first free ones.** A base and a suffix that no live symbol has as its
name are taken as they are. Otherwise the least number from two on is appended that makes a name
which no live symbol has. The search for it ends, within as many tries as there are live symbols;
so a number is always found, and never is the result the name of a live symbol. -/
theorem freshName_exact (table : SymbolTable) (base suffix : String) :
    let name := base ++ suffix
    ((∀ s, table.name? s ≠ some name) → table.freshName base suffix = name) ∧
    ((∃ s, table.name? s = some name) → ∃ n tries,
      table.freshName base suffix = name ++ toString n ∧ table.freeNumber? name = some n ∧
      IsLeast {k | 2 ≤ k ∧ ∀ s, table.name? s ≠ some (name ++ toString k)} n ∧
      Probes table name 2 n tries ∧ tries ≤ table.symbols.length) ∧
    ∀ s, table.name? s ≠ some (table.freshName base suffix) := by
  intro name
  refine ⟨fun hfree => ?_, fun htaken => ?_, ?_⟩
  · rw [freshName, isNameTaken_eq_false_iff.mpr hfree]
    rfl
  · have htaken := isNameTaken_iff.mpr htaken
    obtain ⟨n, hn, -⟩ := freeNumber?_of_isNameTaken htaken
    have hleast := isLeast_of_freeNumber? hn
    have hbound := (List.mem_range'_1.mp (List.mem_of_find?_eq_some hn)).2
    have hprobes : Probes table name 2 n (n - 1) :=
      probes_iff.mpr ⟨hleast, by have := hleast.1.1; omega⟩
    refine ⟨n, n - 1, ?_, hn, ?_, hprobes, ?_⟩
    · rw [freshName, htaken, hn]
      rfl
    · simpa only [isNameTaken_eq_false_iff] using hleast
    · rw [← liveCount_eq]
      omega
  · exact isNameTaken_eq_false_iff.mp (table.isNameTaken_freshName base suffix)

/-- Live symbols `S`, `S'`, `S'` and `S'2`, and an erased symbol `S'3`. -/
def crowded : SymbolTable :=
  (serve { id := ⟨1⟩ }
    [.addAll .nonterminal ["S", "S'", "S'"], .addAll .terminal ["S'2", "S'3"],
      .erase ⟨⟨1⟩, 4⟩]).1

/-- The name of the erased symbol is the first free one, and the second that is tried. -/
theorem freshName_exact_crowded :
    crowded.freshName "S" "'" = "S'3" ∧ (∃ s, crowded.name? s = some ("S" ++ "'")) ∧
      ∃ n tries, "S'3" = "S'" ++ toString n ∧ Probes crowded "S'" 2 n tries ∧ tries ≤ 4 := by
  have htaken : crowded.name? ⟨⟨1⟩, 1⟩ = some ("S" ++ "'") := by decide +kernel
  have hname : crowded.freshName "S" "'" = "S'3" := by decide +kernel
  obtain ⟨n, tries, hfresh, -, -, hprobes, hle⟩ := (freshName_exact crowded "S" "'").2.1 ⟨_, htaken⟩
  refine ⟨hname, ⟨_, htaken⟩, n, tries, ?_, hprobes, hle⟩
  rw [← hname, hfresh]
  rfl

end TopDown.SymbolTable
