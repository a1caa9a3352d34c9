import TopDown.Identity

/-!
# Symbols

A symbol is a handle: the identity of its owner and an index into the owner's symbol table. Two
symbols with one name are still two symbols, and a handle may be stale or made up, so whoever
receives one asks its own table about it.

* `Symbol.le` orders symbols by owner first and by creation second; `le_trans`, `le_total` and
  `le_antisymm` say that it is a linear order.
* `Symbol.rebind` moves a handle to another owner, at the same index.
* `Symbol.ofIndex?` refuses the indices that no table ever reaches.
-/

namespace TopDown

/-- A handle of a grammar symbol. -/
structure Symbol where
  owner : Identity
  index : Nat
deriving DecidableEq, Repr

namespace Symbol

/-- The two disjoint kinds of symbols. Only a nonterminal may stand on a left-hand side. -/
inductive Kind where
  | terminal
  | nonterminal
deriving DecidableEq, Repr

/-- The greatest index a symbol may have. Indices are stored one greater, in 32 bits. -/
def maxIndex : Nat := 4294967294

def ofIndex? (owner : Identity) (index : Nat) : Option Symbol :=
  if index ≤ maxIndex then some ⟨owner, index⟩ else none

/-- The written form of a handle, such as `G1#0`. -/
def text (s : Symbol) : String := s.owner.text ++ "#" ++ toString s.index

def rebind (s : Symbol) (owner : Identity) : Symbol := { s with owner }

/-- Symbols come in the order of their owners, and those of one owner in creation order. -/
def le (a b : Symbol) : Bool :=
  a.owner.number < b.owner.number || (a.owner.number == b.owner.number && a.index ≤ b.index)

/-- The symbols of a list in order. Equal handles stay as often as they occur. -/
def sort (symbols : List Symbol) : List Symbol := symbols.mergeSort le

/-! ## The order of symbols -/

theorem le_iff {a b : Symbol} : a.le b = true ↔
    a.owner.number < b.owner.number ∨ a.owner.number = b.owner.number ∧ a.index ≤ b.index := by
  simp [le]

theorem le_trans {a b c : Symbol} (hab : a.le b = true) (hbc : b.le c = true) :
    a.le c = true := by
  rw [le_iff] at *
  omega

theorem le_total (a b : Symbol) : (a.le b || b.le a) = true := by
  rw [Bool.or_eq_true, le_iff, le_iff]
  omega

theorem le_antisymm {a b : Symbol} (hab : a.le b = true) (hba : b.le a = true) : a = b := by
  obtain ⟨⟨m⟩, i⟩ := a
  obtain ⟨⟨n⟩, j⟩ := b
  rw [le_iff] at hab hba
  simp only at hab hba
  have hnumber : m = n := by omega
  have hindex : i = j := by omega
  rw [hnumber, hindex]

/-- No symbol occurs twice in a list in strict creation order. -/
theorem nodup_of_pairwise {symbols : List Symbol} (h : symbols.Pairwise (·.index < ·.index)) :
    symbols.Nodup := by
  refine h.imp ?_
  rintro s _ hlt rfl
  exact Nat.lt_irrefl _ hlt

end Symbol

end TopDown
