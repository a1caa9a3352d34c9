import TopDown.Transform.Progress

/-!
# Lists of drafts

A list of drafts counts in two ways: by the rules it stands for, and by the productions whose IDs
it keeps.

* `rulesOf`, `originsOf` are the two views; `mem_rulesOf_helperDrafts_iff` and
  `originsOf_helperDrafts` read them off the drafts of a helper.
* `originsOf_flatMap_sublist`: a replacement of drafts in place keeps no origin that it did not
  find.
-/

namespace TopDown.Transform

variable {drafts drafts' : List Draft} {r : Rule}

def rulesOf (drafts : List Draft) : List Rule := drafts.map (·.toRule)

def originsOf (drafts : List Draft) : List Production.Id := drafts.filterMap (·.origin)

theorem mem_rulesOf {d : Draft} (h : d ∈ drafts) : d.toRule ∈ rulesOf drafts :=
  List.mem_map_of_mem h

theorem mem_rulesOf_iff : r ∈ rulesOf drafts ↔ ∃ d ∈ drafts, d.toRule = r := List.mem_map

theorem forall_mem_rulesOf_iff {P : Rule → Prop} :
    (∀ r ∈ rulesOf drafts, P r) ↔ ∀ d ∈ drafts, P d.toRule :=
  List.forall_mem_map

theorem rulesOf_append : rulesOf (drafts ++ drafts') = rulesOf drafts ++ rulesOf drafts' :=
  List.map_append

theorem originsOf_append :
    originsOf (drafts ++ drafts') = originsOf drafts ++ originsOf drafts' :=
  List.filterMap_append

theorem rules_eq_rulesOf (g : Grammar) : g.system.rules = rulesOf g.drafts := by
  simp only [Grammar.system, rulesOf, Grammar.drafts, List.map_map]
  rfl

theorem originsOf_drafts (g : Grammar) : originsOf g.drafts = g.productions.map (·.id) := by
  simp only [originsOf, Grammar.drafts, List.filterMap_map]
  exact congrFun List.filterMap_eq_map' _

/-! ## The drafts of a helper -/

theorem rulesOf_helperDrafts {helper : Symbol} {name : String} {rhss : List (List Symbol)} :
    rulesOf (helperDrafts helper name rhss) = rhss.map fun rhs => ⟨helper, rhs⟩ := by
  refine List.ext_getElem (by simp [rulesOf, helperDrafts]) fun i _ _ => ?_
  simp [rulesOf, helperDrafts]

theorem mem_rulesOf_helperDrafts_iff {helper : Symbol} {name : String}
    {rhss : List (List Symbol)} :
    r ∈ rulesOf (helperDrafts helper name rhss) ↔ ∃ rhs ∈ rhss, r = ⟨helper, rhs⟩ := by
  rw [mem_rulesOf_iff]
  constructor
  · rintro ⟨d, hd, rfl⟩
    obtain ⟨i, hi, rfl⟩ := List.mem_mapIdx.mp hd
    exact ⟨rhss[i], List.getElem_mem hi, rfl⟩
  · rintro ⟨rhs, hrhs, rfl⟩
    obtain ⟨i, hi, rfl⟩ := List.getElem_of_mem hrhs
    exact ⟨_, List.mem_mapIdx.mpr ⟨i, hi, rfl⟩, rfl⟩

theorem originsOf_helperDrafts {helper : Symbol} {name : String} {rhss : List (List Symbol)} :
    originsOf (helperDrafts helper name rhss) = [] := by
  refine List.filterMap_eq_nil_iff.mpr fun d hd => ?_
  obtain ⟨i, hi, rfl⟩ := List.mem_mapIdx.mp hd
  rfl

theorem filter_helperDrafts_eq_nil {helper : Symbol} {name : String} {rhss : List (List Symbol)}
    {keep : Draft → Bool} (h : ∀ d : Draft, d.lhs = helper → d.rhs ∈ rhss → keep d = false) :
    (helperDrafts helper name rhss).filter keep = [] := by
  refine List.filter_eq_nil_iff.mpr fun d hd => ?_
  obtain ⟨i, hi, rfl⟩ := List.mem_mapIdx.mp hd
  rw [h _ rfl (List.getElem_mem hi)]
  exact Bool.false_ne_true

/-! ## Replacements in place -/

theorem originsOf_flatMap_sublist {f : Draft → List Draft}
    (h : ∀ d, (originsOf (f d)).Sublist d.origin.toList) (drafts : List Draft) :
    (originsOf (drafts.flatMap f)).Sublist (originsOf drafts) := by
  induction drafts with
  | nil => exact List.Sublist.refl _
  | cons d drafts ih =>
      have hcons : originsOf (d :: drafts) = d.origin.toList ++ originsOf drafts := by
        unfold originsOf
        rw [List.filterMap_cons]
        cases d.origin <;> rfl
      rw [List.flatMap_cons, originsOf_append, hcons]
      exact (h d).append ih

theorem originsOf_map_of_none {α : Type} {f : α → Draft} (h : ∀ x, (f x).origin = none)
    (xs : List α) : originsOf (xs.map f) = [] := by
  refine List.filterMap_eq_nil_iff.mpr fun d hd => ?_
  obtain ⟨x, -, rfl⟩ := List.mem_map.mp hd
  exact h x

theorem originsOf_singleton (d : Draft) : originsOf [d] = d.origin.toList := by
  cases h : d.origin <;> simp [originsOf, h]

end TopDown.Transform
