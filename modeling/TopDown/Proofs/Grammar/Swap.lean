import Mathlib.Data.List.Induction
import TopDown.Proofs.Grammar.Faults
import TopDown.Proofs.Grammar.History
import TopDown.Proofs.Transform.Drafts

/-!
# The swap of the production list

Replacing all productions is one step: a list of drafts becomes the production list, or the first
draft that does not fit is the cause of refusal and nothing happens.

* `Replaceable g drafts`: the rules are admitted, and the origins are productions of `g`, each at
  most once.
* `Offends g kept d e`: the draft `d` does not fit behind drafts that keep the IDs `kept`, and `e`
  says why. `draftFault?_eq_some_iff` reads the check of a draft in this way.
* `draftsFault?_append`: the check of a list goes on where the check of a beginning stopped;
  `draftsFault?_eq_some_iff`: what it finds is the fault of the first draft that offends.
* `Swapped g drafts g'`: what a swap changes and what it leaves.
* `replaceProductions_exact`: all of it, and a permutation of the productions as a special case.
-/

namespace TopDown.Grammar

open Transform

variable {g g' : Grammar} {d : Draft} {drafts : List Draft} {kept : List Production.Id}
  {e : Error}

/-! ## What a list of drafts is refused for -/

/-- A list of drafts that may become the production list of the grammar. -/
structure Replaceable (g : Grammar) (drafts : List Draft) : Prop where
  admits : ∀ d ∈ drafts, g.Admits d.toRule
  known : ∀ i ∈ originsOf drafts, i ∈ g.ids
  distinct : (originsOf drafts).Nodup

/-- A draft does not fit behind drafts that keep some IDs: its rule is not admitted, or else its
origin is no production of the grammar or is kept already. -/
inductive Offends (g : Grammar) (kept : List Production.Id) (d : Draft) : Error → Prop
  | rule {e : Error} (hrule : g.Misfits d.toRule e) : Offends g kept d e
  | unknown {i : Production.Id} (hadmits : g.Admits d.toRule) (horigin : d.origin = some i)
      (hunknown : i ∉ g.ids) : Offends g kept d (.unknownProduction i)
  | duplicate {i : Production.Id} (hadmits : g.Admits d.toRule) (horigin : d.origin = some i)
      (hknown : i ∈ g.ids) (hkept : i ∈ kept) : Offends g kept d (.duplicateProduction i)

theorem replaceable_iff : g.Replaceable drafts ↔ g.draftsFault? [] drafts = none := by
  rw [draftsFault?_eq_none_iff]
  simp only [List.not_mem_nil, not_false_eq_true, and_true]
  constructor
  · intro h
    exact ⟨h.admits, fun i hi => List.mem_map.mp (h.known i hi), h.distinct⟩
  · rintro ⟨hadmits, hknown, hdistinct⟩
    exact ⟨hadmits, fun i hi => List.mem_map.mpr (hknown i hi), hdistinct⟩

theorem productionFault?_of_mem {i : Production.Id} (hi : i ∈ g.ids) :
    g.productionFault? i = none :=
  productionFault?_eq_none_iff.mpr (List.mem_map.mp hi)

theorem productionFault?_of_not_mem {i : Production.Id} (hi : i ∉ g.ids) :
    g.productionFault? i = some (.unknownProduction i) :=
  productionFault?_eq_some_iff.mpr (.missing hi)

theorem draftFault?_eq_some_iff : g.draftFault? kept d = some e ↔ g.Offends kept d e := by
  rw [draftFault?, Option.orElse_eq_orElse, Option.orElse_eq_or, Option.or_eq_some_iff,
    ruleFault?_eq_some_iff, ruleFault?_eq_none_iff]
  constructor
  · rintro (hrule | ⟨hadmits, hfault⟩)
    · exact .rule hrule
    · split at hfault
      · cases hfault
      · rename_i i horigin
        by_cases hknown : i ∈ g.ids
        · rw [productionFault?_of_mem hknown] at hfault
          by_cases hkept : i ∈ kept
          · rw [if_pos hkept] at hfault
            cases hfault
            exact .duplicate hadmits horigin hknown hkept
          · rw [if_neg hkept] at hfault
            cases hfault
        · rw [productionFault?_of_not_mem hknown] at hfault
          cases hfault
          exact .unknown hadmits horigin hknown
  · rintro (hrule | ⟨hadmits, horigin, hunknown⟩ | ⟨hadmits, horigin, hknown, hkept⟩)
    · exact Or.inl hrule
    · refine Or.inr ⟨hadmits, ?_⟩
      simp only [horigin, productionFault?_of_not_mem hunknown]
      rfl
    · refine Or.inr ⟨hadmits, ?_⟩
      simp only [horigin, productionFault?_of_mem hknown, if_pos hkept]
      rfl

/-- The check of a list goes on behind a beginning with the IDs that the beginning keeps. -/
theorem draftsFault?_append (g : Grammar) (kept : List Production.Id) (before after : List Draft) :
    g.draftsFault? kept (before ++ after) =
      (g.draftsFault? kept before).or
        (g.draftsFault? ((originsOf before).reverse ++ kept) after) := by
  induction before generalizing kept with
  | nil => rfl
  | cons d before ih =>
      have hkept : (originsOf (d :: before)).reverse ++ kept =
          (originsOf before).reverse ++ (d.origin.toList ++ kept) := by
        unfold originsOf
        rw [List.filterMap_cons]
        cases d.origin <;> simp
      rw [List.cons_append, draftsFault?, draftsFault?, hkept, ih]
      simp only [Option.orElse_eq_orElse, Option.orElse_eq_or, Option.or_assoc]

/-- What is found in a list is the fault of its first draft that offends. -/
theorem draftsFault?_eq_some_iff : g.draftsFault? [] drafts = some e ↔
    ∃ before d after, drafts = before ++ d :: after ∧ g.Replaceable before ∧
      g.Offends (originsOf before) d e := by
  -- Which IDs are kept matters, but not in which order they were met.
  have hoffends : ∀ (before : List Draft) (d : Draft),
      g.draftFault? ((originsOf before).reverse ++ []) d = some e ↔
        g.Offends (originsOf before) d e := by
    intro before d
    rw [← draftFault?_eq_some_iff]
    simp only [draftFault?, List.append_nil, List.mem_reverse]
  constructor
  · -- Drafts are split off at the end: either the beginning has a fault, or the last draft.
    induction drafts using List.reverseRecOn with
    | nil => exact fun hfault => nomatch hfault
    | append_singleton drafts last ih =>
        intro hfault
        rw [draftsFault?_append, Option.or_eq_some_iff] at hfault
        rcases hfault with hbefore | ⟨hnone, hlast⟩
        · obtain ⟨before, d, after, rfl, hreplaceable, hd⟩ := ih hbefore
          exact ⟨before, d, after ++ [last], by simp, hreplaceable, hd⟩
        · refine ⟨drafts, last, [], rfl, replaceable_iff.mpr hnone, (hoffends _ _).mp ?_⟩
          simpa [draftsFault?] using hlast
  · rintro ⟨before, d, after, rfl, hbefore, hd⟩
    rw [draftsFault?_append, replaceable_iff.mp hbefore, Option.none_or, draftsFault?,
      (hoffends _ _).mpr hd]
    rfl

theorem replaceProductions_eq_error_iff : g.replaceProductions drafts = .error e ↔
    ∃ before d after, drafts = before ++ d :: after ∧ g.Replaceable before ∧
      g.Offends (originsOf before) d e := by
  rw [replaceProductions, grant_eq_error_iff, draftsFault?_eq_some_iff]

/-! ## What a swap changes -/

/-- The IDs that a list of productions has where a list of drafts keeps none. -/
def newIds (drafts : List Draft) (productions : List Production) : List Production.Id :=
  ((drafts.zip productions).filter (·.1.origin.isNone)).map (·.2.id)

/-- The production list was swapped: in order, each production has the label and the sides of its
draft and the ID that the draft keeps; the others have the serial numbers that come next, which
were never issued before. Nothing else is changed but the counter. -/
structure Swapped (g : Grammar) (drafts : List Draft) (g' : Grammar) : Prop where
  symbols : g'.symbols = g.symbols
  start : g'.start = g.start
  nextSerial : g'.nextSerial = g.nextSerial + drafts.countP (·.origin.isNone)
  productions : List.Forall₂ (fun d p => p.toRule = d.toRule ∧ p.label = d.label ∧
    ∀ i, d.origin = some i → p.id = i) drafts g'.productions
  fresh : newIds drafts g'.productions =
    serials g.id g.nextSerial (drafts.countP (·.origin.isNone))
  unissued : ∀ past requests, Reachable past → past.serve requests = g →
    ∀ i ∈ newIds drafts g'.productions, i ∉ past.ids ∧ i ∉ past.issued requests

theorem newIds_numbered (owner : Identity) (serial : Nat) (drafts : List Draft) :
    newIds drafts (numbered owner serial drafts) =
      serials owner serial (drafts.countP (·.origin.isNone)) := by
  induction drafts generalizing serial with
  | nil => rfl
  | cons d drafts ih =>
      unfold numbered
      split
      · rename_i i horigin
        rw [List.countP_cons_of_neg (by simp [horigin]), ← ih serial, newIds, newIds,
          List.zip_cons_cons, List.filter_cons_of_neg (by simp [horigin])]
      · rename_i horigin
        have hcons : newIds (d :: drafts)
            ({ d with id := ⟨owner, serial⟩ } :: numbered owner (serial + 1) drafts) =
              ⟨owner, serial⟩ :: newIds drafts (numbered owner (serial + 1) drafts) := by
          rw [newIds, List.zip_cons_cons, List.filter_cons_of_pos (by simp [horigin])]
          rfl
        rw [hcons, ih, List.countP_cons_of_pos (by simp [horigin])]
        rfl

/-- The serial numbers that come next were never issued. -/
theorem not_mem_of_mem_serials {past : Grammar} {requests : List Request} (hpast : past.Reachable)
    (hserve : past.serve requests = g) {n : Nat} {i : Production.Id}
    (hi : i ∈ serials g.id g.nextSerial n) : i ∉ past.ids ∧ i ∉ past.issued requests := by
  obtain ⟨-, hle, -⟩ := mem_serials_iff.mp hi
  obtain ⟨m, -, hcounter, hissued⟩ := issued_eq hpast requests
  rw [hserve] at hcounter
  constructor
  · intro hmem
    have hlt := (hpast.wellFormed.of_mem_ids hmem).2
    omega
  · intro hmem
    rw [hissued, mem_serials_iff] at hmem
    omega

theorem swapped_replaceProductions (hok : g.replaceProductions drafts = .ok g') :
    g.Swapped drafts g' := by
  obtain ⟨-, rfl⟩ := grant_eq_ok_iff.mp hok
  have hfresh := newIds_numbered g.id g.nextSerial drafts
  refine ⟨rfl, rfl, rfl, forall₂_numbered _ _ _, hfresh, fun past requests hpast hserve i hi => ?_⟩
  exact not_mem_of_mem_serials hpast hserve (hfresh ▸ hi)

/-! ## The swap -/

/-- A permutation of the productions is a swap of the drafts that keep them. -/
theorem replaceProductions_perm (hg : g.WellFormed) {productions : List Production}
    (hperm : productions.Perm g.productions) :
    g.replaceProductions (productions.map (·.draft)) = .ok { g with productions } := by
  have horigins : originsOf (productions.map (·.draft)) = productions.map (·.id) :=
    originsOf_drafts { g with productions }
  have hreplaceable : g.Replaceable (productions.map (·.draft)) := by
    refine ⟨List.forall_mem_map.mpr fun p hp => hg.admits p (hperm.mem_iff.mp hp), ?_, ?_⟩
    · rw [horigins]
      exact fun i hi => (hperm.map _).mem_iff.mp hi
    · rw [horigins]
      exact (hperm.map _).nodup_iff.mpr hg.distinct
  have hnone : (productions.map (·.draft)).countP (·.origin.isNone) = 0 := by
    simp [List.countP_eq_zero, Production.draft]
  refine grant_eq_ok_iff.mpr ⟨replaceable_iff.mp hreplaceable, ?_⟩
  rw [hnone, Nat.add_zero]
  exact congrArg (fun ps => { g with productions := ps })
    (numbered_drafts g.id g.nextSerial { g with productions })

/-- **The swap of the production list is exact.** It is granted exactly to a list of drafts whose
rules are admitted and whose origins are productions of the grammar, each at most once. If it is
granted, the drafts are the productions from then on, under the IDs that they keep or under the
next serial numbers; if not, the cause is that of the first draft that offends, and the grammar is
as before. In particular the productions may be put into any order. -/
theorem replaceProductions_exact (hg : g.Reachable) (drafts : List Draft) :
    ((∃ g', g.replaceProductions drafts = .ok g') ↔ g.Replaceable drafts) ∧
    (∀ g', g.replaceProductions drafts = .ok g' → g.Swapped drafts g') ∧
    (∀ e, g.replaceProductions drafts = .error e ↔ ∃ before d after,
      drafts = before ++ d :: after ∧ g.Replaceable before ∧ g.Offends (originsOf before) d e) ∧
    (∀ e, Edit.apply g (.replaceProductions drafts) = (g, .refused e) ↔ ∃ before d after,
      drafts = before ++ d :: after ∧ g.Replaceable before ∧ g.Offends (originsOf before) d e) ∧
    ∀ productions, productions.Perm g.productions →
      g.replaceProductions (productions.map (·.draft)) = .ok { g with productions } := by
  refine ⟨?_, fun g' => swapped_replaceProductions, fun e => replaceProductions_eq_error_iff,
    fun e => ?_, fun _ => replaceProductions_perm hg.wellFormed⟩
  · rw [replaceable_iff]
    constructor
    · rintro ⟨g', hok⟩
      exact (grant_eq_ok_iff.mp hok).1
    · intro hnone
      exact ⟨_, grant_eq_ok_iff.mpr ⟨hnone, rfl⟩⟩
  · rw [← replaceProductions_eq_error_iff, Edit.apply]
    cases g.replaceProductions drafts <;> simp [Edit.settle]

/-- The last production of the sample may be kept and an alternative put before it, which gets the
next serial number. -/
theorem replaceProductions_exact_sample :
    let start : Symbol := ⟨⟨1⟩, 0⟩
    let drafts : List Draft :=
      [{ lhs := start, rhs := [], label := "empty" },
        { lhs := start, rhs := [⟨⟨1⟩, 1⟩], origin := some ⟨⟨1⟩, 2⟩, label := "last" }]
    ∃ g', sample.replaceProductions drafts = .ok g' ∧ sample.Swapped drafts g' ∧
      newIds drafts g'.productions = [⟨⟨1⟩, 3⟩] := by
  intro start drafts
  obtain ⟨-, hswapped, -⟩ := replaceProductions_exact reachable_sample drafts
  have hfault : sample.draftsFault? [] drafts = none := by decide +kernel
  obtain ⟨g', hok⟩ : ∃ g', sample.replaceProductions drafts = .ok g' :=
    ⟨_, grant_eq_ok_iff.mpr ⟨hfault, rfl⟩⟩
  refine ⟨g', hok, hswapped g' hok, (hswapped g' hok).fresh.trans ?_⟩
  decide +kernel

end TopDown.Grammar
