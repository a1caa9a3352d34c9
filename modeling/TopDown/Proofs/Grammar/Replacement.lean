import TopDown.Grammar.Replace
import TopDown.Proofs.Grammar.WellFormed
import TopDown.Proofs.RelatedLists

/-!
# Replacing all productions

* `draftsFault?_eq_none_iff`: a list of drafts has no fault exactly if every rule is admitted,
  every origin names a production, and no origin occurs twice.
* `forall₂_numbered`: numbering keeps the label, the sides and the origin of each draft.
* `mem_numbered_id`, `nodup_numbered_id`: it gives IDs that are either kept or new.
* `WellFormed.replaceProductions`: the new list is well-formed.
-/

namespace TopDown.Grammar

variable {g g' : Grammar} {drafts : List Draft}

theorem productionFault?_eq_none_iff {id : Production.Id} :
    g.productionFault? id = none ↔ ∃ p ∈ g.productions, p.id = id := by
  have hids : id ∈ g.ids ↔ ∃ p ∈ g.productions, p.id = id := List.mem_map
  rw [← hids, ← not_iff_not, ← production?_eq_none_iff, productionFault?]
  cases g.production? id <;> simp

theorem draftFault?_eq_none_iff {kept : List Production.Id} {d : Draft} :
    g.draftFault? kept d = none ↔ g.Admits d.toRule ∧
      ∀ id, d.origin = some id → (∃ p ∈ g.productions, p.id = id) ∧ id ∉ kept := by
  unfold draftFault?
  rw [Option.orElse_eq_orElse, Option.orElse_eq_or, Option.or_eq_none_iff,
    ruleFault?_eq_none_iff]
  refine and_congr_right fun _ => ?_
  cases d.origin with
  | none => simp
  | some id =>
      simp only [Option.orElse_eq_or, Option.or_eq_none_iff, productionFault?_eq_none_iff,
        Option.some.injEq, forall_eq']
      refine and_congr_right fun _ => ?_
      split <;> simp_all

theorem draftsFault?_eq_none_iff {kept : List Production.Id} :
    g.draftsFault? kept drafts = none ↔
      (∀ d ∈ drafts, g.Admits d.toRule) ∧
      (∀ id ∈ drafts.filterMap (·.origin), (∃ p ∈ g.productions, p.id = id) ∧ id ∉ kept) ∧
      (drafts.filterMap (·.origin)).Nodup := by
  induction drafts generalizing kept with
  | nil => simp [draftsFault?]
  | cons d drafts ih =>
      rw [draftsFault?, Option.orElse_eq_orElse, Option.orElse_eq_or, Option.or_eq_none_iff,
        draftFault?_eq_none_iff, ih]
      cases horigin : d.origin with
      | none => simp [horigin, and_assoc]
      | some id =>
          simp only [List.filterMap_cons, horigin, List.mem_cons, List.nodup_cons, forall_eq_or_imp,
            Option.some.injEq, forall_eq', Option.toList_some, List.singleton_append, not_or]
          constructor
          · rintro ⟨⟨hd, hid, hkept⟩, hds, hrest, hnodup⟩
            refine ⟨⟨hd, hds⟩, ⟨⟨hid, hkept⟩, fun i hi => ?_⟩, fun hmem => ?_, hnodup⟩
            · exact ⟨(hrest i hi).1, (hrest i hi).2.2⟩
            · exact (hrest id hmem).2.1 rfl
          · rintro ⟨⟨hd, hds⟩, ⟨⟨hid, hkept⟩, hrest⟩, hmem, hnodup⟩
            refine ⟨⟨hd, hid, hkept⟩, hds, fun i hi => ⟨(hrest i hi).1, ?_, (hrest i hi).2⟩, hnodup⟩
            rintro rfl
            exact hmem hi

/-! ## Numbering -/

/-- Numbering gives a production to each draft, with its label, its sides and the ID it keeps. -/
theorem forall₂_numbered (owner : Identity) (serial : Nat) (drafts : List Draft) :
    List.Forall₂ (fun d p => p.toRule = d.toRule ∧ p.label = d.label ∧
      ∀ i, d.origin = some i → p.id = i) drafts (numbered owner serial drafts) := by
  induction drafts generalizing serial with
  | nil => exact .nil
  | cons d drafts ih =>
      unfold numbered
      split
      · rename_i i horigin
        exact .cons ⟨rfl, rfl, fun j hj => Option.some.inj (horigin.symm.trans hj)⟩ (ih serial)
      · rename_i horigin
        refine .cons ⟨rfl, rfl, fun j hj => ?_⟩ (ih (serial + 1))
        rw [horigin] at hj
        cases hj

theorem map_toRule_numbered (owner : Identity) (serial : Nat) (drafts : List Draft) :
    (numbered owner serial drafts).map (·.toRule) = drafts.map (·.toRule) :=
  (map_eq_map_of_forall₂ (forall₂_numbered owner serial drafts) fun _ _ h => h.1.symm).symm

theorem map_label_numbered (owner : Identity) (serial : Nat) (drafts : List Draft) :
    (numbered owner serial drafts).map (·.label) = drafts.map (·.label) :=
  (map_eq_map_of_forall₂ (forall₂_numbered owner serial drafts) fun _ _ h => h.2.1.symm).symm

/-- Drafts that keep every production are numbered as the productions are. -/
theorem numbered_drafts (owner : Identity) (serial : Nat) (g : Grammar) :
    numbered owner serial g.drafts = g.productions := by
  unfold drafts
  induction g.productions with
  | nil => rfl
  | cons q productions ih => exact congrArg (q :: ·) ih

/-- An ID of the new list is the origin of a draft or one of the new serial numbers. -/
theorem mem_numbered_id {owner : Identity} {serial : Nat} {id : Production.Id}
    (h : id ∈ (numbered owner serial drafts).map (·.id)) :
    id ∈ drafts.filterMap (·.origin) ∨
      id.owner = owner ∧ serial ≤ id.serial ∧
        id.serial < serial + drafts.countP (·.origin.isNone) := by
  induction drafts generalizing serial with
  | nil => cases h
  | cons d drafts ih =>
      unfold numbered at h
      split at h
      · rename_i origin horigin
        rcases List.mem_cons.mp h with rfl | h
        · exact Or.inl (by simp [horigin])
        · simp only [List.filterMap_cons, horigin, List.mem_cons, List.countP_cons,
            Option.isNone_some, Bool.false_eq_true, if_false, Nat.add_zero]
          exact (ih h).imp_left Or.inr
      · rename_i horigin
        simp only [List.filterMap_cons, horigin, List.countP_cons, Option.isNone_none, if_true]
        rcases List.mem_cons.mp h with rfl | h
        · exact Or.inr ⟨rfl, Nat.le_refl _, by simp only; omega⟩
        · exact (ih h).imp_right fun ⟨howner, hle, hlt⟩ => ⟨howner, by omega, by omega⟩

/-- Kept and new IDs do not clash, as the serial counter is ahead of the kept ones. -/
theorem nodup_numbered_id {owner : Identity} {serial : Nat}
    (hnodup : (drafts.filterMap (·.origin)).Nodup)
    (hlt : ∀ id ∈ drafts.filterMap (·.origin), id.serial < serial) :
    ((numbered owner serial drafts).map (·.id)).Nodup := by
  induction drafts generalizing serial with
  | nil => exact List.nodup_nil
  | cons d drafts ih =>
      unfold numbered
      split
      · rename_i origin horigin
        simp only [List.filterMap_cons, horigin, List.nodup_cons, List.mem_cons,
          forall_eq_or_imp] at hnodup hlt
        refine List.nodup_cons.mpr ⟨fun hmem => ?_, ih hnodup.2 hlt.2⟩
        rcases mem_numbered_id hmem with hkept | ⟨-, hle, -⟩
        · exact hnodup.1 hkept
        · exact Nat.lt_irrefl _ (Nat.lt_of_lt_of_le hlt.1 hle)
      · rename_i horigin
        simp only [List.filterMap_cons, horigin] at hnodup hlt
        refine List.nodup_cons.mpr ⟨fun hmem => ?_, ih hnodup fun id hid => ?_⟩
        · rcases mem_numbered_id hmem with hkept | ⟨-, hle, -⟩
          · exact Nat.lt_irrefl _ (hlt _ hkept)
          · simp only at hle
            omega
        · exact Nat.lt_succ_of_lt (hlt id hid)

namespace WellFormed

theorem serial_lt_of_origin (h : g.WellFormed) (hfault : g.draftsFault? [] drafts = none) :
    ∀ id ∈ drafts.filterMap (·.origin), id.owner = g.id ∧ id.serial < g.nextSerial := by
  intro id hid
  obtain ⟨⟨p, hp, rfl⟩, -⟩ := (draftsFault?_eq_none_iff.mp hfault).2.1 id hid
  exact h.issued p hp

theorem replaceProductions (h : g.WellFormed) (hok : g.replaceProductions drafts = .ok g') :
    g'.WellFormed := by
  obtain ⟨hfault, rfl⟩ := grant_eq_ok_iff.mp hok
  obtain ⟨hadmits, -, hnodup⟩ := draftsFault?_eq_none_iff.mp hfault
  have hkept := h.serial_lt_of_origin hfault
  refine ⟨?_, ?_, ?_, h.start⟩
  · intro p hp
    have hrule : p.toRule ∈ (numbered g.id g.nextSerial drafts).map (·.toRule) :=
      List.mem_map_of_mem hp
    rw [map_toRule_numbered] at hrule
    obtain ⟨d, hd, heq⟩ := List.mem_map.mp hrule
    rw [← heq]
    exact hadmits d hd
  · intro p hp
    rcases mem_numbered_id (List.mem_map_of_mem hp) with hid | ⟨howner, -, hlt⟩
    · exact ⟨(hkept _ hid).1, Nat.lt_of_lt_of_le (hkept _ hid).2 (Nat.le_add_right ..)⟩
    · exact ⟨howner, hlt⟩
  · exact nodup_numbered_id hnodup fun id hid => (hkept id hid).2

end WellFormed

end TopDown.Grammar
