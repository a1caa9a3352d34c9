import TopDown.Proofs.Elimination.Steps
import TopDown.Proofs.Factoring.Steps
import TopDown.Proofs.Isomorphism.Rules

/-!
# Drafts under other symbols

The steps of the transformations ask of symbols only whether they are equal. So they take lists of
drafts that are the same but for their symbols to such lists again.

* `Draft.Match R O named`: two drafts with the same rule under `R`, which stand for productions
  that `O` relates, or for none; if `named` holds, their labels are the same too.
* `match_substitute`, `match_turnAround` and `match_merge`: the steps keep matching drafts.
* `rel_sharedHead?`: the choice of the symbol to merge by is the same on both sides.
-/

namespace TopDown

open Relator
open scoped Relator

/-- Two drafts are the same but for their symbols, their origins and, unless `named` holds, their
labels. -/
structure Draft.Match (R : Symbol → Symbol → Prop) (O : Production.Id → Production.Id → Prop)
    (named : Prop) (d d' : Draft) : Prop where
  rule : Rule.Match R d.toRule d'.toRule
  origin : Option.Rel O d.origin d'.origin
  label : named → d.label = d'.label

namespace Transform

variable {R : Symbol → Symbol → Prop} {O : Production.Id → Production.Id → Prop} {named : Prop}
  {drafts drafts' : List Draft} {d d' : Draft} {a a' b b' h h' : Symbol} {name name' : String}
  {u u' v v' : List Symbol}

theorem rulesOf_match (hdrafts : List.Forall₂ (Draft.Match R O named) drafts drafts') :
    List.Forall₂ (Rule.Match R) (rulesOf drafts) (rulesOf drafts') :=
  List.rel_map (fun _ _ hd => hd.rule) hdrafts

/-- The drafts of a helper match those of another. -/
theorem match_helperDrafts {rhss rhss' : List (List Symbol)} (hh : R h h')
    (hname : named → name = name') (hrhss : List.Forall₂ (List.Forall₂ R) rhss rhss') :
    List.Forall₂ (Draft.Match R O named) (helperDrafts h name rhss)
      (helperDrafts h' name' rhss') := by
  obtain ⟨hlength, hget⟩ := List.forall₂_iff_get.mp hrhss
  refine List.forall₂_iff_get.mpr ⟨by simpa [helperDrafts] using hlength, fun i hi hi' => ?_⟩
  have hrhs := hget i (by simpa [helperDrafts] using hi) (by simpa [helperDrafts] using hi')
  simp only [helperDrafts, List.get_eq_getElem, List.getElem_mapIdx] at hrhs ⊢
  exact ⟨⟨hh, hrhs⟩, .none, fun hn => congrArg (· ++ " #" ++ toString (i + 1)) (hname hn)⟩

section Tests

variable (hR : BiUnique R)
include hR

theorem startsWith_eq_of_match (ha : R a a') (hb : R b b') (hd : Draft.Match R O named d d') :
    Elimination.startsWith a b d = Elimination.startsWith a' b' d' := by
  rw [Elimination.startsWith, Elimination.startsWith, decide_eq_of_rel hR hd.rule.1 ha,
    decide_eq_decide.mpr (head?_eq_some_iff_of_rel hR hd.rule.2 hb)]

theorem isRecursive_eq_of_match (ha : R a a') (hd : Draft.Match R O named d d') :
    Elimination.isRecursive a d = Elimination.isRecursive a' d' := by
  rw [Elimination.isRecursive, Elimination.isRecursive, Rule.isLeftRecursive,
    Rule.isLeftRecursive, decide_eq_of_rel hR hd.rule.1 ha,
    decide_eq_decide.mpr (head?_eq_some_iff_of_rel hR hd.rule.2 hd.rule.1)]

theorem isMember_eq_of_match (ha : R a a') (hb : R b b') (hd : Draft.Match R O named d d') :
    Factoring.isMember a b d = Factoring.isMember a' b' d' :=
  startsWith_eq_of_match hR ha hb hd

end Tests

theorem filter_match {p p' : Draft → Bool}
    (hdrafts : List.Forall₂ (Draft.Match R O named) drafts drafts')
    (hp : ∀ d d', Draft.Match R O named d d' → p d = p' d') :
    List.Forall₂ (Draft.Match R O named) (drafts.filter p) (drafts'.filter p') :=
  List.rel_filter (fun d d' hd => iff_of_eq (congrArg (· = true) (hp d d' hd))) hdrafts

/-! ## Elimination -/

namespace Elimination

variable (hR : BiUnique R)
  (hdrafts : List.Forall₂ (Draft.Match R O named) drafts drafts')
include hR hdrafts

theorem rel_expansions (hb : R b b') :
    List.Forall₂ (List.Forall₂ R) (expansions b drafts) (expansions b' drafts') :=
  List.rel_map (fun _ _ hd => hd.rule.2)
    (filter_match hdrafts fun _ _ hd => decide_eq_of_rel hR hd.rule.1 hb)

theorem match_substitute (ha : R a a') (hb : R b b') :
    List.Forall₂ (Draft.Match R O named) (substitute a b drafts) (substitute a' b' drafts') := by
  refine List.rel_flatMap hdrafts fun d d' hd => ?_
  rw [startsWith_eq_of_match hR ha hb hd]
  split
  · refine List.rel_map (fun β β' hβ => ?_) (rel_expansions hR hdrafts hb)
    refine ⟨⟨ha, List.rel_append hβ ?_⟩, .none, hd.label⟩
    rw [← List.drop_one, ← List.drop_one]
    exact List.forall₂_drop 1 hd.rule.2
  · exact .cons hd .nil

theorem rel_recursiveTails (ha : R a a') :
    List.Forall₂ (List.Forall₂ R) (recursiveTails a drafts) (recursiveTails a' drafts') := by
  refine List.rel_map (fun d d' hd => ?_)
    (filter_match hdrafts fun _ _ hd => isRecursive_eq_of_match hR ha hd)
  rw [← List.drop_one, ← List.drop_one]
  exact List.forall₂_drop 1 hd.rule.2

theorem match_seeds (ha : R a a') (hh : R h h') :
    List.Forall₂ (Draft.Match R O named) (seeds a h drafts) (seeds a' h' drafts') := by
  refine List.rel_map (fun d d' hd => ?_) (filter_match hdrafts fun d d' hd => ?_)
  · have hlhs : d.lhs = a ↔ d'.lhs = a' := rel_eq hR hd.rule.1 ha
    by_cases heq : d.lhs = a
    · rw [if_pos heq, if_pos (hlhs.mp heq)]
      exact ⟨⟨ha, List.rel_append hd.rule.2 (.cons hh .nil)⟩, .none, hd.label⟩
    · rw [if_neg heq, if_neg fun heq' => heq (hlhs.mpr heq')]
      exact hd
  · rw [isRecursive_eq_of_match hR ha hd]

theorem match_turnAround (ha : R a a') (hh : R h h') (hname : named → name = name') :
    List.Forall₂ (Draft.Match R O named) (turnAround a h name drafts)
      (turnAround a' h' name' drafts') := by
  refine List.rel_append (match_seeds hR hdrafts ha hh) (match_helperDrafts hh hname ?_)
  refine List.rel_append ?_ (.cons .nil .nil)
  exact List.rel_map (fun α α' hα => List.rel_append hα (.cons hh .nil))
    (rel_recursiveTails hR hdrafts ha)

end Elimination

/-! ## Left-factoring -/

namespace Factoring

section Heads

variable (hR : BiUnique R)
  (hdrafts : List.Forall₂ (Draft.Match R O named) drafts drafts')
include hR

theorem rel_common (hu : List.Forall₂ R u u') (hv : List.Forall₂ R v v') :
    List.Forall₂ R (common u v) (common u' v') := by
  induction hu generalizing v v' with
  | nil =>
      cases hv <;> exact .nil
  | @cons s s' u u' hs _ ih =>
      cases hv with
      | nil => exact .nil
      | @cons t t' v v' ht hv =>
          have heq := rel_eq hR hs ht
          unfold common
          by_cases hst : s = t
          · rw [if_pos hst, if_pos (heq.mp hst)]
            exact .cons hs (ih hv)
          · rw [if_neg hst, if_neg fun hst' => hst (heq.mpr hst')]
            exact .nil

theorem rel_commonOfAll {us us' : List (List Symbol)}
    (hus : List.Forall₂ (List.Forall₂ R) us us') :
    List.Forall₂ R (commonOfAll us) (commonOfAll us') := by
  have hcommon : (List.Forall₂ R ⇒ List.Forall₂ R ⇒ List.Forall₂ R) common common :=
    fun _ _ hu _ _ hv => rel_common hR hu hv
  cases hus with
  | nil => exact .nil
  | cons hu hus => exact List.rel_foldl hcommon hu hus

include hdrafts

theorem rel_heads (ha : R a a') : List.Forall₂ R (heads a drafts) (heads a' drafts') := by
  have halternatives := filter_match hdrafts fun d d' hd => decide_eq_of_rel hR hd.rule.1 ha
  exact List.rel_filterMap (fun d d' (hd : Draft.Match R O named d d') => rel_head? hd.rule.2)
    halternatives

/-- The first shared symbol is the same on both sides. -/
theorem rel_sharedHead? (ha : R a a') :
    Option.Rel R (sharedHead? a drafts) (sharedHead? a' drafts') := by
  have hheads := rel_heads hR hdrafts ha
  exact rel_find? hheads fun s s' hs => by rw [count_eq_of_rel hR hheads hs]

theorem match_members (ha : R a a') (hb : R b b') :
    List.Forall₂ (Draft.Match R O named) (members a b drafts) (members a' b' drafts') :=
  filter_match hdrafts fun _ _ hd => isMember_eq_of_match hR ha hb hd

theorem rel_beginning (ha : R a a') (hb : R b b') :
    List.Forall₂ R (beginning a b drafts) (beginning a' b' drafts') :=
  rel_commonOfAll hR
    (List.rel_map (fun _ _ hd => hd.rule.2) (match_members hR hdrafts ha hb))

end Heads

theorem match_mergeInto {fits fits' : Draft → Bool} {merged merged' : Draft → Draft}
    (hdrafts : List.Forall₂ (Draft.Match R O named) drafts drafts')
    (hfits : ∀ d d', Draft.Match R O named d d' → fits d = fits' d')
    (hmerged : ∀ d d', Draft.Match R O named d d' →
      Draft.Match R O named (merged d) (merged' d')) :
    List.Forall₂ (Draft.Match R O named) (mergeInto fits merged drafts)
      (mergeInto fits' merged' drafts') := by
  induction hdrafts with
  | nil => exact .nil
  | @cons d d' drafts drafts' hd hdrafts ih =>
      rw [mergeInto, mergeInto, hfits d d' hd]
      split
      · exact .cons (hmerged d d' hd)
          (filter_match hdrafts fun e e' he => by rw [hfits e e' he])
      · exact .cons hd ih

theorem match_merge (hR : BiUnique R)
    (hdrafts : List.Forall₂ (Draft.Match R O named) drafts drafts') (ha : R a a') (hb : R b b')
    (hh : R h h') (hname : named → name = name') :
    List.Forall₂ (Draft.Match R O named) (merge a b h name drafts)
      (merge a' b' h' name' drafts') := by
  have hshared := rel_beginning hR hdrafts ha hb
  refine List.rel_append ?_ (match_helperDrafts hh hname ?_)
  · refine match_mergeInto hdrafts (fun _ _ hd => isMember_eq_of_match hR ha hb hd) ?_
    exact fun d d' hd => ⟨⟨ha, List.rel_append hshared (.cons hh .nil)⟩, .none, hd.label⟩
  · refine List.rel_map (fun d d' hd => ?_) (match_members hR hdrafts ha hb)
    rw [hshared.length_eq]
    exact List.forall₂_drop _ hd.rule.2

end Factoring

end Transform

end TopDown
