import TopDown.Proofs.Derivation
import TopDown.Proofs.RelatedLists

/-!
# Rules under other symbols

Two lists of rules are the same but for their symbols if a one-to-one relation of symbols takes
them into one another, position by position. The relation need not say anything of symbols that
are not in use, so it can pair up symbols of two grammars that have nothing else in common.

* `Renames` is that notion; it is symmetric (`Renames.symm`), so each fact below has to be carried
  over in one direction only.
* `Renames.vanishes_iff`, `Renames.transGen_corner_iff`, `Renames.cyclic_iff` and
  `Renames.hides_iff`: all kinds of recursion are the same on both sides.
-/

namespace TopDown

open Relation Relator

/-- Both sides of two rules are related, position by position. -/
def Rule.Match (R : Symbol → Symbol → Prop) (r r' : Rule) : Prop :=
  R r.lhs r'.lhs ∧ List.Forall₂ R r.rhs r'.rhs

/-- Two lists of rules are the same but for their symbols, which are related one to one. -/
structure Renames (R : Symbol → Symbol → Prop) (rules rules' : List Rule) : Prop where
  unique : BiUnique R
  rules : List.Forall₂ (Rule.Match R) rules rules'

variable {R : Symbol → Symbol → Prop} {rules rules' : List Rule} {a a' b b' : Symbol}
  {r r' : Rule} {u v : List Symbol}

namespace Renames

theorem symm (h : Renames R rules rules') : Renames (flip R) rules' rules where
  unique := ⟨fun _ _ _ hab hac => h.unique.2 hab hac, h.unique.1.flip⟩
  rules := (h.rules.imp fun _ _ hr => ⟨hr.1, List.Forall₂.flip hr.2⟩ :
    List.Forall₂ (flip (Rule.Match (flip R))) rules rules').flip

section OneDirection

variable (h : Renames R rules rules')
include h

theorem vanishes (hv : Vanishes rules a) (ha : R a a') : Vanishes rules' a' := by
  induction hv generalizing a' with
  | @rule r hr _ ih =>
      obtain ⟨r', hr', hlhs, hrhs⟩ := exists_of_forall₂ h.rules hr
      rw [h.unique.2 ha hlhs]
      refine .of_mem hr' fun s' hs' => ?_
      obtain ⟨s, hs, hss⟩ := exists_of_forall₂ (S := flip R) hrhs.flip hs'
      exact ih s hs hss

theorem allVanish (hv : AllVanish rules u) (hu : List.Forall₂ R u v) : AllVanish rules' v := by
  intro s' hs'
  obtain ⟨s, hs, hss⟩ := exists_of_forall₂ (S := flip R) hu.flip hs'
  exact h.vanishes (hv s hs) hss

theorem leads {tail tail' : List Symbol → Prop}
    (htail : ∀ β β', List.Forall₂ R β β' → tail β → tail' β') (hlead : Leads tail rules a b)
    (ha : R a a') : ∃ b', R b b' ∧ Leads tail' rules' a' b' := by
  obtain ⟨r, hr, rfl, α, β, hsplit, hα, hβ⟩ := hlead
  obtain ⟨r', hr', hlhs, hrhs⟩ := exists_of_forall₂ h.rules hr
  rw [hsplit] at hrhs
  obtain ⟨α', b', β', hsplit', hα', hb, hβ'⟩ := split_of_forall₂ hrhs
  rw [h.unique.2 ha hlhs]
  exact ⟨b', hb, r', hr', rfl, α', β', hsplit', h.allVanish hα hα', htail β β' hβ' hβ⟩

/-- Chains are carried over step by step. -/
theorem transGen_leads {tail tail' : List Symbol → Prop}
    (htail : ∀ β β', List.Forall₂ R β β' → tail β → tail' β')
    (hab : TransGen (Leads tail rules) a b) (ha : R a a') (hb : R b b') :
    TransGen (Leads tail' rules') a' b' := by
  have hchain : ∃ c', R b c' ∧ TransGen (Leads tail' rules') a' c' := by
    clear hb
    induction hab with
    | single hstep =>
        obtain ⟨c', hc, hstep'⟩ := h.leads htail hstep ha
        exact ⟨c', hc, .single hstep'⟩
    | tail _ hstep ih =>
        obtain ⟨c', hc, hchain⟩ := ih
        obtain ⟨d', hd, hstep'⟩ := h.leads htail hstep hc
        exact ⟨d', hd, hchain.tail hstep'⟩
  obtain ⟨c', hc, hchain⟩ := hchain
  rwa [h.unique.2 hb hc]

theorem transGen_corner (hab : TransGen (Corner rules) a b) (ha : R a a') (hb : R b b') :
    TransGen (Corner rules') a' b' :=
  h.transGen_leads (fun _ _ _ => id) hab ha hb

theorem cyclic (hcyclic : Cyclic rules a) (ha : R a a') : Cyclic rules' a' := by
  rw [Cyclic, derivesPlus_singleton_iff] at hcyclic ⊢
  exact h.transGen_leads (fun _ _ hβ hv => h.allVanish hv hβ) hcyclic ha ha

theorem hides (hhides : Hides rules r) (hr : Rule.Match R r r') : Hides rules' r' := by
  obtain ⟨α, x, β, hsplit, hne, hα, hback⟩ := hides_iff.mp hhides
  obtain ⟨hlhs, hrhs⟩ := hr
  rw [hsplit] at hrhs
  obtain ⟨α', x', β', hsplit', hα', hx, -⟩ := split_of_forall₂ hrhs
  refine hides_iff.mpr ⟨α', x', β', hsplit', ?_, h.allVanish hα hα', ?_⟩
  · rintro rfl
    exact hne (List.forall₂_nil_right_iff.mp hα')
  · rcases reflTransGen_iff_eq_or_transGen.mp hback with heq | hchain
    · rw [← heq] at hx
      rw [h.unique.2 hx hlhs]
    · exact (h.transGen_corner hchain hx hlhs).to_reflTransGen

end OneDirection

/-! ## Both directions -/

variable (h : Renames R rules rules')
include h

theorem transGen_corner_iff (ha : R a a') (hb : R b b') :
    TransGen (Corner rules) a b ↔ TransGen (Corner rules') a' b' :=
  ⟨fun hab => h.transGen_corner hab ha hb, fun hab => h.symm.transGen_corner hab ha hb⟩

theorem vanishes_iff (ha : R a a') : Vanishes rules a ↔ Vanishes rules' a' :=
  ⟨fun hv => h.vanishes hv ha, fun hv => h.symm.vanishes hv ha⟩

theorem cyclic_iff (ha : R a a') : Cyclic rules a ↔ Cyclic rules' a' :=
  ⟨fun hcyclic => h.cyclic hcyclic ha, fun hcyclic => h.symm.cyclic hcyclic ha⟩

theorem hides_iff (hr : Rule.Match R r r') : Hides rules r ↔ Hides rules' r' :=
  ⟨fun hhides => h.hides hhides hr,
    fun hhides => h.symm.hides hhides ⟨hr.1, List.Forall₂.flip hr.2⟩⟩

end Renames

end TopDown
