import Mathlib.Logic.Relation
import TopDown.SymbolRelation

/-!
# The transitive closure of a relation

Letting each index in turn be a way station fills exactly the cells that are connected in one or
more steps. Once an index has been a way station, the table is closed by way of it, and stays so
while others follow; after all of them the table is transitive.
-/

namespace TopDown.SymbolRelation

open Relation

namespace Table

variable {n : Nat}

/-- Whatever is connected by way of an index is connected directly. -/
def ClosedVia (t : Table n) (k : Nat) : Prop :=
  ∀ i j, t.get i k = true → t.get k j = true → t.get i j = true

theorem get_closeVia_iff {t : Table n} {k i j : Nat} :
    (t.closeVia k).get i j = true ↔
      t.get i j = true ∨ t.get i k = true ∧ t.get k j = true := by
  rw [get_closeVia, Bool.or_eq_true, Bool.and_eq_true]

theorem closedVia_closeVia (t : Table n) (k : Nat) : (t.closeVia k).ClosedVia k := by
  intro i j hi hj
  rw [get_closeVia_iff] at hi hj ⊢
  have hik : t.get i k = true := hi.elim id (·.1)
  have hkj : t.get k j = true := hj.elim id (·.2)
  exact Or.inr ⟨hik, hkj⟩

theorem ClosedVia.closeVia {t : Table n} {l : Nat} (h : t.ClosedVia l) (k : Nat) :
    (t.closeVia k).ClosedVia l := by
  intro i j hi hj
  rw [get_closeVia_iff] at hi hj ⊢
  rcases hi with hil | ⟨hik, hkl⟩
  · rcases hj with hlj | ⟨hlk, hkj⟩
    · exact Or.inl (h i j hil hlj)
    · exact Or.inr ⟨h i k hil hlk, hkj⟩
  · rcases hj with hlj | ⟨_, hkj⟩
    · exact Or.inr ⟨hik, h k j hkl hlj⟩
    · exact Or.inr ⟨hik, hkj⟩

theorem ClosedVia.foldl {t : Table n} {l : Nat} (h : t.ClosedVia l) (ks : List Nat) :
    (ks.foldl Table.closeVia t).ClosedVia l := by
  induction ks generalizing t with
  | nil => exact h
  | cons k ks ih => exact ih (h.closeVia k)

theorem closedVia_foldl {k : Nat} {ks : List Nat} (hk : k ∈ ks) (t : Table n) :
    (ks.foldl Table.closeVia t).ClosedVia k := by
  induction ks generalizing t with
  | nil => cases hk
  | cons l ks ih =>
      rcases List.mem_cons.mp hk with rfl | hk
      · exact (closedVia_closeVia t k).foldl ks
      · exact ih hk (t.closeVia l)

theorem get_foldl_of_get {t : Table n} {i j : Nat} (h : t.get i j = true) (ks : List Nat) :
    (ks.foldl closeVia t).get i j = true := by
  induction ks generalizing t with
  | nil => exact h
  | cons k ks ih => exact ih (get_closeVia_iff.mpr (Or.inl h))

theorem transGen_of_get_foldl {t : Table n} (ks : List Nat) {i j : Nat}
    (h : (ks.foldl closeVia t).get i j = true) :
    TransGen (fun i j => t.get i j = true) i j := by
  induction ks generalizing t i j with
  | nil => exact .single h
  | cons k ks ih =>
      refine TransGen.trans_induction_on (ih h) ?_ (fun _ _ => TransGen.trans)
      intro i j hij
      rcases get_closeVia_iff.mp hij with hij | ⟨hik, hkj⟩
      · exact .single hij
      · exact TransGen.trans (.single hik) (.single hkj)

theorem get_trans_transitiveClosure {t : Table n} {i k j : Nat}
    (hik : t.transitiveClosure.get i k = true) (hkj : t.transitiveClosure.get k j = true) :
    t.transitiveClosure.get i j = true := by
  by_cases hk : k < n
  · exact closedVia_foldl (List.mem_range.mpr hk) t i j hik hkj
  · rw [get_of_not_lt fun hc => hk hc.2] at hik
    cases hik

theorem get_transitiveClosure_iff {t : Table n} {i j : Nat} :
    t.transitiveClosure.get i j = true ↔ TransGen (fun i j => t.get i j = true) i j := by
  constructor
  · exact transGen_of_get_foldl (List.range n)
  · intro h
    induction h with
    | single h => exact get_foldl_of_get h _
    | tail _ h ih => exact get_trans_transitiveClosure ih (get_foldl_of_get h _)

end Table

theorem holds_iff {r : SymbolRelation} {a b : Symbol} :
    r.holds a b = true ↔
      a.owner = r.owner ∧ b.owner = r.owner ∧ r.cells.get a.index b.index = true := by
  rw [holds, Bool.and_eq_true, Bool.and_eq_true, decide_eq_true_eq, decide_eq_true_eq, and_assoc]

/-- **Transitive closure.** Symbols are related by the closure if a chain of related symbols
connects them. -/
theorem holds_transitiveClosure_iff {r : SymbolRelation} {a b : Symbol} :
    r.transitiveClosure.holds a b = true ↔ TransGen (fun a b => r.holds a b = true) a b := by
  constructor
  · intro h
    obtain ⟨ha, hb, hcell⟩ := holds_iff.mp h
    have hchain := Table.get_transitiveClosure_iff.mp hcell
    have hlift := TransGen.lift (p := fun a b => r.holds a b = true) (Symbol.mk r.owner)
      (fun i j hij => holds_iff.mpr ⟨rfl, rfl, hij⟩) _ _ hchain
    obtain ⟨_, _⟩ := a
    obtain ⟨_, _⟩ := b
    cases ha
    cases hb
    exact hlift
  · intro h
    have hcell := Table.get_transitiveClosure_iff.mpr
      (TransGen.lift (p := fun i j => r.cells.get i j = true) Symbol.index
        (fun a b hab => (holds_iff.mp hab).2.2) _ _ h)
    obtain ⟨c, hac, _⟩ := TransGen.head'_iff.mp h
    obtain ⟨d, _, hdb⟩ := TransGen.tail'_iff.mp h
    exact holds_iff.mpr ⟨(holds_iff.mp hac).1, (holds_iff.mp hdb).2.1, hcell⟩

end TopDown.SymbolRelation
