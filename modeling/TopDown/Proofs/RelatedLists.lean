import Mathlib.Data.List.Forall2

/-!
# Related lists

Two lists are related if their items are, position by position (`List.Forall₂`), and two optional
values if both are missing or both are there and related (`Option.Rel`). What is needed of the two
notions in general is kept here: passing from one side to the other, and the functions on lists
that ask of an item only what is the same for related items.

* `exists_of_forall₂`, `split_of_forall₂`: an item, and a position, has its like on the other side.
* `exists_forall₂`: related lists from related items. `map_eq_map_of_forall₂` and
  `eq_map_of_forall₂`: related lists that a function makes equal.
* `rel_find?`, `any_eq_of_rel`, `count_eq_of_rel`: tests that do not tell related items apart.
-/

namespace TopDown

open Relator

variable {α β γ δ : Type} {S : α → β → Prop} {T : γ → δ → Prop} {xs : List α} {ys : List β}

/-! ## Items and positions -/

theorem exists_of_forall₂ {x : α} (h : List.Forall₂ S xs ys) (hx : x ∈ xs) :
    ∃ y ∈ ys, S x y := by
  induction h with
  | nil => cases hx
  | @cons z y xs ys hzy _ ih =>
      rcases List.mem_cons.mp hx with rfl | hx
      · exact ⟨y, List.mem_cons_self, hzy⟩
      · obtain ⟨w, hw, hxw⟩ := ih hx
        exact ⟨w, List.mem_cons_of_mem _ hw, hxw⟩

/-- Where everything is related to something, a list is related to a list. -/
theorem exists_forall₂ (h : ∀ x ∈ xs, ∃ y, S x y) : ∃ ys, List.Forall₂ S xs ys := by
  induction xs with
  | nil => exact ⟨[], .nil⟩
  | cons x xs ih =>
      obtain ⟨y, hy⟩ := h x List.mem_cons_self
      obtain ⟨ys, hys⟩ := ih fun x hx => h x (List.mem_cons_of_mem _ hx)
      exact ⟨y :: ys, .cons hy hys⟩

/-- What two functions take to the same value for related items. -/
theorem map_eq_map_of_forall₂ {f : α → γ} {f' : β → γ} (h : List.Forall₂ S xs ys)
    (hf : ∀ x y, S x y → f x = f' y) : xs.map f = ys.map f' := by
  have heq : List.Forall₂ Eq (xs.map f) (ys.map f') := List.rel_map (fun x y => hf x y) h
  rw [List.forall₂_eq_eq_eq] at heq
  exact heq

theorem eq_map_of_forall₂ {f : α → β} (h : List.Forall₂ S xs ys) (hf : ∀ x y, S x y → y = f x) :
    ys = xs.map f := by
  have hmap : ys.map id = xs.map f :=
    (map_eq_map_of_forall₂ h fun x y hxy => (hf x y hxy).symm).symm
  rwa [List.map_id] at hmap

/-- A position on one list is a position on the other. -/
theorem split_of_forall₂ {us vs : List α} {x : α} (h : List.Forall₂ S (us ++ x :: vs) ys) :
    ∃ us' y vs', ys = us' ++ y :: vs' ∧ List.Forall₂ S us us' ∧ S x y ∧
      List.Forall₂ S vs vs' := by
  induction us generalizing ys with
  | nil =>
      obtain ⟨y, vs', hxy, hvs, rfl⟩ := List.forall₂_cons_left_iff.mp h
      exact ⟨[], y, vs', rfl, .nil, hxy, hvs⟩
  | cons u us ih =>
      obtain ⟨u', rest, hu, hrest, rfl⟩ := List.forall₂_cons_left_iff.mp h
      obtain ⟨us', y, vs', rfl, hus, hxy, hvs⟩ := ih hrest
      exact ⟨u' :: us', y, vs', rfl, .cons hu hus, hxy, hvs⟩

theorem rel_head? (h : List.Forall₂ S xs ys) : Option.Rel S xs.head? ys.head? := by
  cases h with
  | nil => exact .none
  | cons hxy _ => exact .some hxy

theorem isEmpty_eq_of_rel (h : List.Forall₂ S xs ys) : xs.isEmpty = ys.isEmpty := by
  cases h <;> rfl

/-! ## Optional values -/

theorem exists_of_rel_some {x : α} {o : Option β} (h : Option.Rel S (some x) o) :
    ∃ y, o = some y ∧ S x y := by
  cases h with
  | some hxy => exact ⟨_, rfl, hxy⟩

theorem eq_none_of_rel_none {o : Option β} (h : Option.Rel S none o) : o = none := by
  cases h
  rfl

theorem rel_option_map {f : α → γ} {f' : β → δ} {o : Option α} {o' : Option β}
    (h : Option.Rel S o o') (hf : ∀ x y, S x y → T (f x) (f' y)) :
    Option.Rel T (o.map f) (o'.map f') := by
  cases h with
  | some hxy => exact .some (hf _ _ hxy)
  | none => exact .none

/-! ## Tests that are the same for related items -/

section Tests

variable {p : α → Bool} {q : β → Bool} (hxs : List.Forall₂ S xs ys)
  (htest : ∀ x y, S x y → p x = q y)
include hxs htest

/-- Related lists have related first items where a test finds any. -/
theorem rel_find? : Option.Rel S (xs.find? p) (ys.find? q) := by
  induction hxs with
  | nil => exact .none
  | @cons x y xs ys hxy _ ih =>
      rw [List.find?_cons, List.find?_cons, htest x y hxy]
      split
      · exact .some hxy
      · exact ih

theorem any_eq_of_rel : xs.any p = ys.any q := by
  induction hxs with
  | nil => rfl
  | cons hxy _ ih => rw [List.any_cons, List.any_cons, htest _ _ hxy, ih]

end Tests

/-! ## Items that are related one to one -/

section OneToOne

variable [DecidableEq α] [DecidableEq β] {x z : α} {y w : β} (hS : BiUnique S)
include hS

theorem decide_eq_of_rel (hxy : S x y) (hzw : S z w) : decide (x = z) = decide (y = w) :=
  decide_eq_decide.mpr (rel_eq hS hxy hzw)

theorem count_eq_of_rel (h : List.Forall₂ S xs ys) (hzw : S z w) : xs.count z = ys.count w := by
  induction h with
  | nil => rfl
  | @cons x y xs ys hxy _ ih =>
      have heq : (x == z) = (y == w) := by
        rw [beq_eq_decide, beq_eq_decide]
        exact decide_eq_of_rel hS hxy hzw
      rw [List.count_cons, List.count_cons, ih, heq]

end OneToOne

theorem head?_eq_some_iff_of_rel {x : α} {y : β} (hS : BiUnique S) (h : List.Forall₂ S xs ys)
    (hxy : S x y) : xs.head? = some x ↔ ys.head? = some y := by
  cases h with
  | nil => simp
  | cons hhead _ =>
      rw [List.head?_cons, List.head?_cons, Option.some.injEq, Option.some.injEq]
      exact rel_eq hS hhead hxy

end TopDown
