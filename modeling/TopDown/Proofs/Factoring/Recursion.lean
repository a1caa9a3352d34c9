import TopDown.Proofs.Elimination.Outcome
import TopDown.Proofs.Factoring.Language
import TopDown.Proofs.Factoring.NormalForm

/-!
# Left-factoring and recursion

A merge moves the ends of some alternatives behind a helper. What the rules derive without
mentioning the helper stays the same, and this is what the analyses measure.

* `derivesPlus_merge_iff`: strings without the helper are derived as before, in one step or more.
* `SameRecursion`: on some symbols, rules have the nullable symbols, unit derivations and left
  corners of other rules.
* `sameRecursion_merge`, `sameRecursion_factorAll`: one merge and a whole run.
* `recursion_leftFactor`: left-factoring keeps what the analyses say of the symbols of a grammar, so
  that elimination followed by left-factoring reaches a grammar with which both are done.
-/

namespace TopDown

open Relation

variable {rules rules' rules'' : List Rule} {known : Symbol → Prop}

/-- On the symbols that are known, `rules'` has the nullable symbols, unit derivations and left
corners of `rules`; and if nothing at all is left-recursive in `rules`, so it is in `rules'`. -/
structure SameRecursion (known : Symbol → Prop) (rules rules' : List Rule) : Prop where
  vanishes : ∀ a, known a → (Vanishes rules' a ↔ Vanishes rules a)
  units : ∀ a b, known a → known b →
    (TransGen (UnitStep rules') a b ↔ TransGen (UnitStep rules) a b)
  fronts : ∀ a b, known a → known b → (TransGen (Fronts rules') a b ↔ TransGen (Fronts rules) a b)
  corners : ∀ a b, known a → known b →
    (TransGen (Corner rules') a b ↔ TransGen (Corner rules) a b)
  clear : (∀ a, ¬LeftRecursive rules a) → ∀ a, ¬LeftRecursive rules' a

theorem SameRecursion.refl (known : Symbol → Prop) (rules : List Rule) :
    SameRecursion known rules rules :=
  ⟨fun _ _ => Iff.rfl, fun _ _ _ _ => Iff.rfl, fun _ _ _ _ => Iff.rfl, fun _ _ _ _ => Iff.rfl, id⟩

theorem SameRecursion.trans (h : SameRecursion known rules rules')
    (h' : SameRecursion known rules' rules'') : SameRecursion known rules rules'' where
  vanishes a ha := (h'.vanishes a ha).trans (h.vanishes a ha)
  units a b ha hb := (h'.units a b ha hb).trans (h.units a b ha hb)
  fronts a b ha hb := (h'.fronts a b ha hb).trans (h.fronts a b ha hb)
  corners a b ha hb := (h'.corners a b ha hb).trans (h.corners a b ha hb)
  clear hnone := h'.clear (h.clear hnone)

theorem SameRecursion.mono {known' : Symbol → Prop} (h : SameRecursion known rules rules')
    (hknown : ∀ a, known' a → known a) : SameRecursion known' rules rules' where
  vanishes a ha := h.vanishes a (hknown a ha)
  units a b ha hb := h.units a b (hknown a ha) (hknown b hb)
  fronts a b ha hb := h.fronts a b (hknown a ha) (hknown b hb)
  corners a b ha hb := h.corners a b (hknown a ha) (hknown b hb)
  clear := h.clear

/-- What the analyses say of symbols is what the rules say of them. -/
theorem SameRecursion.analyses {system system' : RuleSystem} {a b : Symbol}
    (h : SameRecursion known system.rules system'.rules) (hscoped : system.isScoped = true)
    (hscoped' : system'.isScoped = true) (ha : known a) (hb : known b) :
    system'.nullable.contains a = system.nullable.contains a ∧
    (system'.unitDerivation system'.nullable).holds a b =
      (system.unitDerivation system.nullable).holds a b ∧
    system'.leftCorners.holds a b = system.leftCorners.holds a b ∧
    (system'.vanishingCorners system'.nullable).holds a b =
      (system.vanishingCorners system.nullable).holds a b := by
  simp only [Bool.eq_iff_iff, RuleSystem.contains_nullable_iff hscoped,
    RuleSystem.contains_nullable_iff hscoped', RuleSystem.holds_unitDerivation_iff hscoped,
    RuleSystem.holds_unitDerivation_iff hscoped', RuleSystem.holds_leftCorners_iff hscoped,
    RuleSystem.holds_leftCorners_iff hscoped', RuleSystem.holds_vanishingCorners_iff hscoped,
    RuleSystem.holds_vanishingCorners_iff hscoped']
  exact ⟨h.vanishes a ha, h.units a b ha hb, h.fronts a b ha hb, h.corners a b ha hb⟩

namespace Transform.Factoring

variable {a b x y head helper : Symbol} {name : String} {drafts : List Draft} {u w : List Symbol}

/-! ## One merge -/

section Merge

variable (hany : drafts.any (isMember a head) = true)
  (hfresh : ∀ r ∈ rulesOf drafts, r.lhs ≠ helper ∧ helper ∉ r.rhs)

include hany hfresh

theorem not_mem_beginning : helper ∉ beginning a head drafts := by
  refine (not_mem_of_members hany fun d hd => ?_).1
  exact (hfresh _ (mem_rulesOf (List.mem_of_mem_filter hd))).2

/-- The rules of the helper are the ends of the alternatives that were merged. -/
theorem mem_rulesOf_merge_helper {δ : List Symbol}
    (h : ⟨helper, δ⟩ ∈ rulesOf (merge a head helper name drafts)) :
    ⟨a, beginning a head drafts ++ δ⟩ ∈ rulesOf drafts ∧ helper ∉ δ := by
  rcases (mem_rulesOf_merge_iff hany).mp h with (⟨hr, -⟩ | heq) | ⟨δ', ⟨hδ, -⟩, heq⟩
  · exact absurd rfl (hfresh _ hr).1
  · exact absurd (congrArg Rule.lhs heq).symm (ne_of_fresh hany fun r hr => (hfresh r hr).1)
  · rw [show δ = δ' from congrArg Rule.rhs heq]
    exact ⟨hδ, fun hmem => (hfresh _ hδ).2 (List.mem_append_right _ hmem)⟩

/-- The helper stands at the end of one right-hand side and nowhere else. -/
theorem eq_merged_of_helper_mem {r : Rule}
    (hr : r ∈ rulesOf (merge a head helper name drafts)) (hmem : helper ∈ r.rhs) :
    r = ⟨a, beginning a head drafts ++ [helper]⟩ := by
  rcases (mem_rulesOf_merge_iff hany).mp hr with (⟨hr, -⟩ | rfl) | ⟨δ, ⟨hδ, -⟩, rfl⟩
  · exact absurd hmem (hfresh _ hr).2
  · rfl
  · exact absurd (List.mem_append_right _ hmem) (hfresh _ hδ).2

/-- **Strings without the helper** are derived from other symbols as before. -/
theorem derivesPlus_merge_iff (hx : x ≠ helper) (hw : helper ∉ w) :
    DerivesPlus (rulesOf (merge a head helper name drafts)) [x] w ↔
      DerivesPlus (rulesOf drafts) [x] w := by
  have hleaves : ∀ s ∈ w, s ≠ helper := fun s hs heq => hw (heq ▸ hs)
  have hne := ne_of_fresh hany fun r hr => (hfresh r hr).1
  have hspells : ∀ γ, helper ∉ γ →
      (Derives (rulesOf (merge a head helper name drafts)) γ w ↔
        Derives (rulesOf drafts) γ w) := by
    intro γ hγ
    have hiff : Spells (rulesOf (merge a head helper name drafts)) (· ≠ helper) γ w ↔
        Spells (rulesOf drafts) (· ≠ helper) γ w :=
      spells_merge_iff hany (fun h => h rfl) hne hfresh hγ
    rwa [spells_iff, spells_iff, and_iff_left hleaves, and_iff_left hleaves] at hiff
  rw [derivesPlus_iff, derivesPlus_iff]
  constructor
  · rintro ⟨r, hr, rfl, h⟩
    rcases (mem_rulesOf_merge_iff hany).mp hr with (⟨hr', -⟩ | rfl) | ⟨δ, -, rfl⟩
    · exact ⟨r, hr', rfl, (hspells _ (hfresh _ hr').2).mp h⟩
    · -- The helper is gone in the end, so it gave way to one of its ends.
      have h' : Spells _ (· ≠ helper) (beginning a head drafts ++ [helper]) w :=
        spells_iff.mpr ⟨h, hleaves⟩
      obtain ⟨u, v, rfl, hu, hv⟩ := spells_append_iff.mp h'
      obtain ⟨⟨_, δ⟩, hr', rfl, hδ⟩ := hv.rule_of_not_leaf fun hh => hh rfl
      obtain ⟨hmem, hnot⟩ := mem_rulesOf_merge_helper hany hfresh hr'
      refine ⟨_, hmem, rfl, (hspells _ ?_).mp (hu.append hδ).derives.1⟩
      rw [List.mem_append, not_or]
      exact ⟨not_mem_beginning hany hfresh, hnot⟩
    · exact absurd rfl hx
  · rintro ⟨r, hr, rfl, h⟩
    by_cases hmember : r.lhs = a ∧ ∃ γ, r.rhs = head :: γ
    · obtain ⟨δ, hrhs, hmerged, hend⟩ :=
        exists_end_of_member helper name hr hmember.1 hmember.2
      have hbehind : Derives (rulesOf (merge a head helper name drafts))
          (beginning a head drafts ++ [helper]) (beginning a head drafts ++ δ) :=
        Derives.append .refl (.single (.of_mem hend))
      refine ⟨_, hmerged, hmember.1.symm, hbehind.trans ?_⟩
      rw [← hrhs]
      exact (hspells _ (hfresh r hr).2).mpr h
    · exact ⟨r, (mem_rulesOf_merge_iff hany).mpr (Or.inl (Or.inl ⟨hr, hmember⟩)), rfl,
        (hspells _ (hfresh r hr).2).mpr h⟩

theorem vanishes_merge_iff (hx : x ≠ helper) :
    Vanishes (rulesOf (merge a head helper name drafts)) x ↔ Vanishes (rulesOf drafts) x := by
  have hplus : ∀ rules, Derives rules [x] [] ↔ DerivesPlus rules [x] [] := by
    intro rules
    rw [Derives, reflTransGen_iff_eq_or_transGen]
    exact or_iff_right (List.cons_ne_nil _ _).symm
  rw [vanishes_iff, vanishes_iff, hplus, hplus]
  exact derivesPlus_merge_iff hany hfresh hx List.not_mem_nil

theorem units_merge_iff (hx : x ≠ helper) (hy : y ≠ helper) :
    TransGen (UnitStep (rulesOf (merge a head helper name drafts))) x y ↔
      TransGen (UnitStep (rulesOf drafts)) x y := by
  rw [← derivesPlus_singleton_iff, ← derivesPlus_singleton_iff]
  refine derivesPlus_merge_iff hany hfresh hx fun hmem => ?_
  exact hy (List.mem_singleton.mp hmem).symm

variable (name) in
/-- Every string derives one without the helper. -/
theorem exists_derives_not_mem (u : List Symbol) :
    ∃ v, helper ∉ v ∧ Derives (rulesOf (merge a head helper name drafts)) u v := by
  induction u with
  | nil => exact ⟨[], List.not_mem_nil, .refl⟩
  | cons s u ih =>
      obtain ⟨v, hv, hd⟩ := ih
      by_cases hs : s = helper
      · obtain ⟨d, hd', hmember⟩ := List.any_eq_true.mp hany
        obtain ⟨hlhs, hhead⟩ := isMember_iff.mp hmember
        obtain ⟨δ, -, -, hend⟩ := exists_end_of_member helper name
          (mem_rulesOf hd') hlhs hhead
        have hδ := (mem_rulesOf_merge_helper hany hfresh hend).2
        refine ⟨δ ++ v, ?_, ?_⟩
        · rw [List.mem_append, not_or]
          exact ⟨hδ, hv⟩
        · rw [hs]
          exact Derives.append (u := [helper]) (.single (.of_mem hend)) hd
      · exact ⟨s :: v, List.not_mem_cons_of_ne_of_not_mem (Ne.symm hs) hv,
          Derives.append (u := [s]) .refl hd⟩

theorem corners_merge_iff (hx : x ≠ helper) (hy : y ≠ helper) :
    TransGen (Corner (rulesOf (merge a head helper name drafts))) x y ↔
      TransGen (Corner (rulesOf drafts)) x y := by
  rw [← derivesPlus_cons_iff, ← derivesPlus_cons_iff]
  constructor
  · rintro ⟨γ, hγ⟩
    obtain ⟨δ, hδ, hd⟩ := exists_derives_not_mem name hany hfresh γ
    refine ⟨δ, (derivesPlus_merge_iff hany hfresh hx ?_).mp
      (TransGen.trans_left hγ (Derives.append (u := [y]) .refl hd))⟩
    exact List.not_mem_cons_of_ne_of_not_mem (Ne.symm hy) hδ
  · rintro ⟨γ, hγ⟩
    refine ⟨γ, (derivesPlus_merge_iff hany hfresh hx ?_).mpr hγ⟩
    exact Derives.not_mem hγ.to_reflTransGen (fun r hr => (hfresh r hr).2)
      fun hmem => hx (List.mem_singleton.mp hmem).symm

/-- The helper is a corner of one symbol only, so recursion of the helper is one of that symbol. -/
theorem not_leftRecursive_merge (hnone : ∀ s, ¬LeftRecursive (rulesOf drafts) s) (s : Symbol) :
    ¬LeftRecursive (rulesOf (merge a head helper name drafts)) s := by
  have hother : ∀ s, s ≠ helper →
      ¬LeftRecursive (rulesOf (merge a head helper name drafts)) s := by
    intro s hs
    rw [leftRecursive_iff, corners_merge_iff hany hfresh hs hs, ← leftRecursive_iff]
    exact hnone s
  by_cases hs : s = helper
  · rw [hs, leftRecursive_iff]
    intro hloop
    obtain ⟨z, hz, hlast⟩ := TransGen.tail'_iff.mp hloop
    have hza : z = a := by
      obtain ⟨r, hr, rfl, α, β, hsplit, -⟩ := hlast
      rw [eq_merged_of_helper_mem hany hfresh hr (by rw [hsplit]; simp)]
    rw [hza] at hz hlast
    have hne := ne_of_fresh hany fun r hr => (hfresh r hr).1
    exact hother a hne (leftRecursive_iff.mpr (.head' hlast hz))
  · exact hother s hs

omit hfresh in
theorem fronts_merge_iff (hx : x ≠ helper) :
    Fronts (rulesOf (merge a head helper name drafts)) x y ↔ Fronts (rulesOf drafts) x y := by
  have hmerged : (beginning a head drafts ++ [helper]).head? = some head := by
    rw [List.head?_append, head?_beginning hany]
    rfl
  constructor
  · rintro ⟨r, hr, rfl, hy⟩
    rcases (mem_rulesOf_merge_iff hany).mp hr with (⟨hr, -⟩ | rfl) | ⟨δ, -, rfl⟩
    · exact ⟨r, hr, rfl, hy⟩
    · obtain ⟨δ, hδ⟩ := exists_mem_rulesOf_of_member hany
      refine ⟨_, hδ, rfl, ?_⟩
      rw [← hy, hmerged, List.head?_append, head?_beginning hany]
      rfl
    · exact absurd rfl hx
  · rintro ⟨r, hr, rfl, hy⟩
    by_cases hmember : r.lhs = a ∧ ∃ γ, r.rhs = head :: γ
    · obtain ⟨-, -, hmem, -⟩ :=
        exists_end_of_member helper name hr hmember.1 hmember.2
      refine ⟨_, hmem, hmember.1.symm, ?_⟩
      rw [hmerged, ← hy, List.head?_eq_some_iff.mpr hmember.2]
    · exact ⟨r, (mem_rulesOf_merge_iff hany).mpr (Or.inl (Or.inl ⟨hr, hmember⟩)), rfl, hy⟩

theorem transGen_fronts_merge_iff (hx : x ≠ helper) :
    TransGen (Fronts (rulesOf (merge a head helper name drafts))) x y ↔
      TransGen (Fronts (rulesOf drafts)) x y := by
  have hleft : ∀ s t, Fronts (rulesOf drafts) s t → s ≠ helper ∧ t ≠ helper := by
    rintro _ t ⟨r, hr, rfl, ht⟩
    refine ⟨(hfresh r hr).1, ?_⟩
    rintro rfl
    exact (hfresh r hr).2 (List.mem_of_mem_head? ht)
  constructor
  · intro h
    -- No chain from another symbol comes to the helper.
    have hchain : TransGen (Fronts (rulesOf drafts)) x y ∧ y ≠ helper := by
      induction h with
      | single h =>
          have hstep := (fronts_merge_iff hany hx).mp h
          exact ⟨.single hstep, (hleft _ _ hstep).2⟩
      | tail _ h ih =>
          have hstep := (fronts_merge_iff hany ih.2).mp h
          exact ⟨ih.1.tail hstep, (hleft _ _ hstep).2⟩
    exact hchain.1
  · exact TransGen.mono (fun s t h => (fronts_merge_iff hany (hleft s t h).1).mpr h) x y

theorem sameRecursion_merge :
    SameRecursion (· ≠ helper) (rulesOf drafts) (rulesOf (merge a head helper name drafts)) where
  vanishes _ := vanishes_merge_iff hany hfresh
  units _ _ := units_merge_iff hany hfresh
  fronts _ _ hx _ := transGen_fronts_merge_iff hany hfresh hx
  corners _ _ := corners_merge_iff hany hfresh
  clear := not_leftRecursive_merge hany hfresh

end Merge

/-! ## The run -/

section Run

variable {g : Grammar} {p : Progress} (options : Options)

theorem sameRecursion_factorAll (hp : p.Tracks g)
    (h : SameRecursion (g.symbols.contains · = true) g.system.rules (rulesOf p.drafts))
    (queue : List Symbol) :
    let I (q : Progress) : Prop := q.Tracks g ∧
      SameRecursion (g.symbols.contains · = true) g.system.rules (rulesOf q.drafts)
    Meets I (I ·.progress) (factorAll options p queue) := by
  refine meets_factorAll_of_merge ?_ ⟨hp, h⟩ queue
  rintro a q head ⟨htracks, hsame⟩ hshared journal
  refine ⟨tracks_merge htracks hshared journal, ?_⟩
  exact hsame.trans ((sameRecursion_merge (any_isMember_of_sharedHead? hshared)
    (htracks.fresh options a)).mono fun s hs => htracks.ne_introduce hs)

theorem sameRecursion_leftFactor (hg : g.WellFormed) {helpers : List Symbol}
    (hok : (g.leftFactor options).result = .ok helpers) :
    SameRecursion (g.symbols.contains · = true) g.system.rules
      (g.leftFactor options).grammar.system.rules := by
  have hstart : SameRecursion (g.symbols.contains · = true) g.system.rules
      (rulesOf (Progress.start g #[]).drafts) := by
    rw [rules_eq_rulesOf]
    exact .refl _ _
  have hrun := sameRecursion_factorAll options (.start hg #[]) hstart g.symbols.nonterminals
  obtain ⟨p, hp, heq⟩ := exists_of_result_eq_ok hok
  rw [hp] at hrun
  rw [heq, (Progress.Tracks.commit_eq hrun.1 hg).2.1]
  exact hrun.2

/-- **Left-factoring keeps recursion as it is.** If it succeeds, the symbols of the grammar are
nullable, derive one another alone and have one another as left corners as before. So if
elimination and then left-factoring succeed, nothing is left-recursive and no two alternatives
start with the same symbol, and doing either again changes nothing. -/
theorem recursion_leftFactor (hg : g.Reachable) :
    (∀ helpers, (g.leftFactor options).result = .ok helpers →
      let system := (g.leftFactor options).grammar.system
      ∀ a b, g.symbols.contains a = true → g.symbols.contains b = true →
        system.nullable.contains a = g.system.nullable.contains a ∧
        (system.unitDerivation system.nullable).holds a b =
          (g.system.unitDerivation g.system.nullable).holds a b ∧
        system.leftCorners.holds a b = g.system.leftCorners.holds a b ∧
        (system.vanishingCorners system.nullable).holds a b =
          (g.system.vanishingCorners g.system.nullable).holds a b) ∧
    ∀ first helpers helpers', (g.eliminateLeftRecursion first).result = .ok helpers →
      ((g.eliminateLeftRecursion first).grammar.leftFactor options).result = .ok helpers' →
      let after := ((g.eliminateLeftRecursion first).grammar.leftFactor options).grammar
      (∀ s, ¬LeftRecursive after.system.rules s) ∧
        after.system.leftRecursion.leftRecursive = [] ∧ Factored after.system.rules ∧
        ∀ again, (after.eliminateLeftRecursion again).result = .ok [] ∧
          (after.eliminateLeftRecursion again).grammar = after ∧
          (after.leftFactor again).result = .ok [] ∧
          (after.leftFactor again).grammar = after := by
  have hwf := hg.wellFormed
  constructor
  · intro helpers hok system a b ha hb
    exact (sameRecursion_leftFactor options hwf hok).analyses hwf.isScoped
      (hg.factored options).wellFormed.isScoped ha hb
  · intro first helpers helpers' hfirst hok after
    have hmiddle := hg.eliminated first
    have hafter : after.WellFormed := (hmiddle.factored options).wellFormed
    have hnone : ∀ s, ¬LeftRecursive after.system.rules s :=
      (sameRecursion_leftFactor options hmiddle.wellFormed hok).clear
        (Elimination.not_leftRecursive_of_ok hwf hfirst)
    have hfactored : Factored after.system.rules := factored_of_ok hmiddle.wellFormed hok
    -- Each transformation changes nothing where there is nothing to do for it.
    refine ⟨hnone, ?_, hfactored, fun again => ?_⟩
    · refine List.eq_nil_iff_forall_not_mem.mpr fun s hs => hnone s ?_
      exact (RuleSystem.mem_leftRecursive_iff hafter.isScoped).mp hs
    · obtain ⟨heliminated, hsame⟩ := Elimination.unchanged_of_not_leftRecursive hafter hnone
      exact ⟨heliminated, hsame, leftFactor_of_factored again hafter hfactored⟩

/-- The start symbol of the sample is a left corner of itself, and factoring the sample does not
hide it. After an elimination, factoring succeeds as well and nothing is left to do. -/
theorem recursion_leftFactor_sample :
    let start : Symbol := ⟨⟨1⟩, 0⟩
    let system := (Grammar.sample.leftFactor {}).grammar.system
    let middle := (Grammar.sample.eliminateLeftRecursion {}).grammar
    (Grammar.sample.leftFactor {}).result = .ok [⟨⟨1⟩, 3⟩] ∧
      (system.vanishingCorners system.nullable).holds start start = true ∧
      (Grammar.sample.eliminateLeftRecursion {}).result = .ok [⟨⟨1⟩, 3⟩] ∧
      (middle.leftFactor {}).result = .ok [⟨⟨1⟩, 4⟩] ∧
      Factored (middle.leftFactor {}).grammar.system.rules ∧
      ∀ s, ¬LeftRecursive (middle.leftFactor {}).grammar.system.rules s := by
  have hfactor := Grammar.leftFactor_sample
  have heliminate : (Grammar.sample.eliminateLeftRecursion {}).result = .ok [⟨⟨1⟩, 3⟩] := by
    decide +kernel
  have hmiddle : ((Grammar.sample.eliminateLeftRecursion {}).grammar.leftFactor {}).result =
      .ok [⟨⟨1⟩, 4⟩] :=
    leftFactor_of_within (n := 8) (f := (·.result)) (by decide +kernel)
  have hlive : Grammar.sample.symbols.contains ⟨⟨1⟩, 0⟩ = true := by decide +kernel
  obtain ⟨hsame, hpipeline⟩ := recursion_leftFactor {} Grammar.reachable_sample
  obtain ⟨hnone, -, hfactored, -⟩ := hpipeline {} _ _ heliminate hmiddle
  refine ⟨hfactor, ?_, heliminate, hmiddle, hfactored, hnone⟩
  rw [(hsame _ hfactor _ _ hlive hlive).2.2.2]
  decide +kernel

end Run

end Transform.Factoring

end TopDown
