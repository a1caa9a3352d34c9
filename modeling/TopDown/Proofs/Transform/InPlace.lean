import TopDown.Proofs.Transform.Tracking

/-!
# Lists that arise in place

Transformations replace drafts in place and append those of their helpers. What that says about
the order of the productions is said by keys, the pairs of a left-hand side and a label.

* `InPlace fits xs ys`: `ys` arises from `xs` by putting, in the place of each element, a list
  that fits it. With `Copies`, these are copies of the element, or none.
* `InPlace.trans_copies`, `InPlace.of_sublist`, `InPlace.sublist`: replacing again, and leaving
  out.
* `InPlace.ne_nil_of_nodup`: blocks of different elements are not empty if each has a member.
* `map_key_numbered`, `mem_numbered`: numbering keeps the keys, and the productions whose drafts
  are there.
-/

namespace TopDown

/-- What a production shares with its copies: the left-hand side and the label. -/
def Production.key (q : Production) : Symbol × String := (q.lhs, q.label)

def Draft.key (d : Draft) : Symbol × String := (d.lhs, d.label)

/-! ## Replacing in place -/

section

variable {α β : Type}

/-- `ys` arises from `xs` by putting, in the place of each element, a list that fits it. -/
inductive InPlace (fits : α → List β → Prop) : List α → List β → Prop
  | nil : InPlace fits [] []
  | cons {x : α} {group : List β} {xs : List α} {ys : List β} (hfits : fits x group)
      (hrest : InPlace fits xs ys) : InPlace fits (x :: xs) (group ++ ys)

def Copies (x : α) (group : List α) : Prop := ∀ y ∈ group, y = x

namespace InPlace

variable {fits : α → List β → Prop} {x : α} {xs xs' : List α} {group ys ys' zs : List β}

theorem append (h : InPlace fits xs ys) (h' : InPlace fits xs' ys') :
    InPlace fits (xs ++ xs') (ys ++ ys') := by
  induction h with
  | nil => exact h'
  | cons hfits _ ih =>
      rw [List.append_assoc]
      exact .cons hfits ih

theorem concat (h : InPlace fits xs ys) (hfits : fits x group) :
    InPlace fits (xs ++ [x]) (ys ++ group) := by
  have hsingle : InPlace fits [x] (group ++ []) := .cons hfits .nil
  rw [List.append_nil] at hsingle
  exact h.append hsingle

theorem exists_of_append (h : InPlace fits (xs ++ xs') zs) :
    ∃ ys ys', zs = ys ++ ys' ∧ InPlace fits xs ys ∧ InPlace fits xs' ys' := by
  induction xs generalizing zs with
  | nil => exact ⟨[], zs, rfl, .nil, h⟩
  | cons x xs ih =>
      rw [List.cons_append] at h
      cases h with
      | cons hfits hrest =>
          obtain ⟨ys, ys', rfl, hys, hys'⟩ := ih hrest
          exact ⟨_, ys', (List.append_assoc ..).symm, .cons hfits hys, hys'⟩

/-- What is there was put in the place of something. -/
theorem exists_of_mem (h : InPlace fits xs ys) {y : β} (hy : y ∈ ys) :
    ∃ x ∈ xs, ∃ group, fits x group ∧ y ∈ group := by
  induction h with
  | nil => cases hy
  | cons hfits _ ih =>
      rcases List.mem_append.mp hy with hy | hy
      · exact ⟨_, List.mem_cons_self, _, hfits, hy⟩
      · obtain ⟨x, hx, group, hfits, hy⟩ := ih hy
        exact ⟨x, List.mem_cons_of_mem _ hx, group, hfits, hy⟩

/-- Something may be left out afterwards, if what is left of a list still fits. -/
theorem sublist (h : InPlace fits xs ys)
    (hfits : ∀ x group group', fits x group → group'.Sublist group → fits x group')
    (hsub : ys'.Sublist ys) : InPlace fits xs ys' := by
  induction h generalizing ys' with
  | nil =>
      rw [List.sublist_nil.mp hsub]
      exact .nil
  | cons hgroup _ ih =>
      obtain ⟨group', rest, rfl, hsub, hsub'⟩ := List.sublist_append_iff.mp hsub
      exact .cons (hfits _ _ _ hgroup hsub) (ih hsub')

/-- Different elements, of which each has a member among what was put in their places, have it in
the list that was put in their own. -/
theorem ne_nil_of_nodup {f : β → α} (h : InPlace (fun x group => ∀ y ∈ group, f y = x) xs ys)
    (hnodup : xs.Nodup) (hmember : ∀ x ∈ xs, ∃ y ∈ ys, f y = x) :
    InPlace (fun x group => group ≠ [] ∧ ∀ y ∈ group, f y = x) xs ys := by
  induction h with
  | nil => exact .nil
  | @cons x group xs ys hgroup hrest ih =>
      obtain ⟨hx, hnodup⟩ := List.nodup_cons.mp hnodup
      refine .cons ⟨?_, hgroup⟩ (ih hnodup fun x' hx' => ?_)
      · obtain ⟨y, hy, hyx⟩ := hmember x List.mem_cons_self
        refine List.ne_nil_of_mem ((List.mem_append.mp hy).resolve_right fun hy => hx ?_)
        obtain ⟨x', hx', group', hgroup', hy'⟩ := hrest.exists_of_mem hy
        rw [← hyx, hgroup' y hy']
        exact hx'
      · obtain ⟨y, hy, hyx'⟩ := hmember x' (List.mem_cons_of_mem _ hx')
        refine ⟨y, (List.mem_append.mp hy).resolve_left fun hy => hx ?_, hyx'⟩
        rw [← hgroup y hy, hyx']
        exact hx'

/-! ### Copies -/

theorem trans_copies {xs ys zs : List α} (h : InPlace Copies xs ys) (h' : InPlace Copies ys zs) :
    InPlace Copies xs zs := by
  induction h generalizing zs with
  | nil => exact h'
  | cons hgroup _ ih =>
      obtain ⟨zs, zs', rfl, hzs, hzs'⟩ := h'.exists_of_append
      refine .cons (fun z hz => ?_) (ih hzs')
      obtain ⟨y, hy, group, hcopies, hz⟩ := hzs.exists_of_mem hz
      exact (hcopies z hz).trans (hgroup y hy)

/-- To leave elements out is to put no copy in their places. -/
theorem of_sublist {xs ys : List α} (h : ys.Sublist xs) : InPlace Copies xs ys := by
  induction h with
  | slnil => exact .nil
  | cons x _ ih =>
      have hnone : Copies x [] := fun _ hy => absurd hy List.not_mem_nil
      exact .cons hnone ih
  | cons_cons x _ ih =>
      have hsame : Copies x [x] := fun _ hy => List.mem_singleton.mp hy
      exact .cons hsame ih

theorem flatMap {γ : Type} {key : γ → α} {f : γ → List γ} (h : ∀ x, ∀ y ∈ f x, key y = key x)
    (xs : List γ) : InPlace Copies (xs.map key) ((xs.flatMap f).map key) := by
  induction xs with
  | nil => exact .nil
  | cons x xs ih =>
      rw [List.flatMap_cons, List.map_append, List.map_cons]
      refine .cons (fun k hk => ?_) ih
      obtain ⟨y, hy, rfl⟩ := List.mem_map.mp hk
      exact h x y hy

end InPlace

end

/-! ## Numbering -/

namespace Grammar

variable {owner : Identity} {serial : Nat} {drafts : List Draft}

theorem map_key_drafts (g : Grammar) : g.drafts.map (·.key) = g.productions.map (·.key) := by
  rw [Grammar.drafts, List.map_map]
  rfl

theorem map_key_numbered (owner : Identity) (serial : Nat) (drafts : List Draft) :
    (numbered owner serial drafts).map (·.key) = drafts.map (·.key) :=
  (map_eq_map_of_forall₂ (forall₂_numbered owner serial drafts) fun _ _ h =>
    congrArg₂ Prod.mk (congrArg (·.lhs) h.1.symm) h.2.1.symm).symm

theorem numbered_append {part rest : List Draft} : numbered owner serial (part ++ rest) =
    numbered owner serial part ++ numbered owner (serial + part.countP (·.origin.isNone)) rest := by
  induction part generalizing serial with
  | nil => rfl
  | cons d part ih =>
      rw [List.cons_append, numbered, numbered, List.countP_cons]
      cases hd : d.origin with
      | none =>
          simp only [ih, Option.isNone_none, if_true, List.cons_append]
          rw [Nat.add_right_comm, Nat.add_assoc]
      | some id => simp only [ih, Option.isNone_some, Bool.false_eq_true, if_false, Nat.add_zero,
          List.cons_append]

/-- A production whose draft is there keeps its ID, its label and its sides. -/
theorem mem_numbered {q : Production} (h : q.draft ∈ drafts) :
    q ∈ numbered owner serial drafts := by
  obtain ⟨p, hp, hrule, hlabel, hid⟩ :=
    exists_of_forall₂ (forall₂_numbered owner serial drafts) h
  have heq : p = q := by
    cases p
    cases q
    cases hrule
    cases hlabel
    cases hid _ rfl
    rfl
  exact heq ▸ hp

end Grammar

end TopDown
