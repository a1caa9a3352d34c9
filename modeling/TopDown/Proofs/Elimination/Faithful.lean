import TopDown.Proofs.Analysis.Exactness
import TopDown.Proofs.Elimination.Steps

/-!
# Faithful right-hand sides

While the elimination is under way, its rules mix symbols of the grammar with helpers. `base`
tells for each helper which nonterminal it serves. With the helpers left out, a right-hand side
of `a` is still something that the grammar derives from `a`; and nothing that leads back to `a`
stands behind symbols that may fade away.

* `Faithful.substitute`, `Faithful.append_helper`: faithfulness is kept by both steps.
* `Sound` gathers what holds of all rules; `sound_start`, `Sound.substitute` and
  `Sound.turnAround` carry it through a run.
* `not_transGen_corner`: sound rules that lead to later nonterminals only have no left
  recursion.
-/

namespace TopDown.Transform.Elimination

open Relation

variable {rules : List Rule} {base base' : Symbol → Option Symbol} {a b h s x : Symbol}
  {u α β γ : List Symbol}

/-! ## Without the helpers -/

/-- A string without its helpers. -/
def strip (base : Symbol → Option Symbol) (u : List Symbol) : List Symbol :=
  u.filter fun s => (base s).isNone

/-- Helpers derive the empty string at all times. -/
def Fades (rules : List Rule) (base : Symbol → Option Symbol) (s : Symbol) : Prop :=
  base s ≠ none ∨ Vanishes rules s

theorem strip_append (u v : List Symbol) : strip base (u ++ v) = strip base u ++ strip base v :=
  List.filter_append u v

theorem strip_cons_of_none (hs : base s = none) : strip base (s :: u) = s :: strip base u := by
  refine List.filter_cons_of_pos ?_
  rw [hs]
  rfl

theorem strip_cons_of_some (hs : base s = some b) : strip base (s :: u) = strip base u := by
  refine List.filter_cons_of_neg ?_
  rw [hs]
  exact Bool.false_ne_true

theorem strip_congr (hbase : ∀ s ∈ u, base' s = base s) : strip base' u = strip base u := by
  refine List.filter_congr fun s hs => ?_
  rw [hbase s hs]

theorem allVanish_strip (hu : ∀ s ∈ u, Fades rules base s) : AllVanish rules (strip base u) := by
  intro s hs
  obtain ⟨hmem, hnone⟩ := List.mem_filter.mp hs
  rcases hu s hmem with hsome | hvanish
  · exact absurd (Option.isNone_iff_eq_none.mp hnone) hsome
  · exact hvanish

/-! ## Faithfulness -/

/-- What an elimination under way may have as a right-hand side of the nonterminal `a`. -/
structure Faithful (rules : List Rule) (base : Symbol → Option Symbol) (a : Symbol)
    (u : List Symbol) : Prop where
  derives : DerivesPlus rules [a] (strip base u)
  exposed : ∀ α x β, u = α ++ x :: β → α ≠ [] → (∀ s ∈ α, Fades rules base s) → base x = none →
    ¬ReflTransGen (Corner rules) x a
  helper : ∀ α h β b, u = α ++ h :: β → (∀ s ∈ α, Fades rules base s) → base h = some b →
    Vanishes rules b ∧ ReflTransGen (Corner rules) a b

namespace Faithful

theorem vanishes (hu : Faithful rules base a u) (hfade : ∀ s ∈ u, Fades rules base s) :
    Vanishes rules a := by
  refine vanishes_iff.mpr ?_
  exact hu.derives.to_reflTransGen.trans (derives_nil_iff.mpr (allVanish_strip hfade))

/-- Symbols that are exposed on a faithful right-hand side are corners of the grammar. -/
theorem corner (hu : Faithful rules base a (α ++ x :: β)) (hα : ∀ s ∈ α, Fades rules base s)
    (hx : base x = none) : TransGen (Corner rules) a x := by
  refine derivesPlus_cons_iff.mp ⟨strip base β, ?_⟩
  have hderives := hu.derives
  rw [strip_append, strip_cons_of_none hx] at hderives
  have hvanish : Derives rules (strip base α ++ x :: strip base β) (x :: strip base β) :=
    (derives_nil_iff.mpr (allVanish_strip hα)).append .refl
  exact hderives.trans_left hvanish

theorem of_rule {r : Rule} (hr : r ∈ rules) (hhides : ¬Hides rules r) :
    Faithful rules (fun _ => none) r.lhs r.rhs where
  derives := by
    have hstrip : strip (fun _ => none) r.rhs = r.rhs := List.filter_eq_self.mpr fun _ _ => rfl
    rw [hstrip]
    exact .of_mem hr
  exposed := by
    intro α x β hsplit hne hα _ hback
    refine hhides (hides_iff.mpr ⟨α, x, β, hsplit, hne, fun s hs => ?_, hback⟩)
    exact (hα s hs).resolve_left fun hsome => hsome rfl
  helper := by
    rintro _ _ _ _ _ _ ⟨⟩

theorem congr (hu : Faithful rules base a u) (hbase : ∀ s ∈ u, base' s = base s) :
    Faithful rules base' a u where
  derives := by
    rw [strip_congr hbase]
    exact hu.derives
  exposed := by
    rintro α x β rfl hne hα hx
    refine hu.exposed α x β rfl hne (fun s hs => ?_) ?_
    · rw [Fades, ← hbase s (List.mem_append_left _ hs)]
      exact hα s hs
    · rw [← hbase x (by simp)]
      exact hx
  helper := by
    rintro α h β b rfl hα hh
    refine hu.helper α h β b rfl (fun s hs => ?_) ?_
    · rw [Fades, ← hbase s (List.mem_append_left _ hs)]
      exact hα s hs
    · rw [← hbase h (by simp)]
      exact hh

/-- **Substitution is faithful.** -/
theorem substitute (ha : Faithful rules base a (b :: γ)) (hb : Faithful rules base b β)
    (hbase : base b = none) : Faithful rules base a (β ++ γ) := by
  have hcorner : TransGen (Corner rules) a b :=
    corner (α := []) ha (by simp) hbase
  -- A position of `β ++ γ` lies in `β`, or behind `β`; then `b` vanishes if all before it fades.
  have hsplits : ∀ α y δ, β ++ γ = α ++ y :: δ → (∀ s ∈ α, Fades rules base s) →
      (∃ δ', β = α ++ y :: δ') ∨
        ∃ α', γ = α' ++ y :: δ ∧ ∀ s ∈ b :: α', Fades rules base s := by
    intro α y δ hsplit hα
    rcases split_append hsplit with ⟨δ', hβ, -⟩ | ⟨α', rfl, hγ⟩
    · exact Or.inl ⟨δ', hβ⟩
    · refine Or.inr ⟨α', hγ, fun s hs => ?_⟩
      rcases List.mem_cons.mp hs with rfl | hs
      · exact Or.inr (hb.vanishes fun t ht => hα t (List.mem_append_left _ ht))
      · exact hα s (List.mem_append_right _ hs)
  refine ⟨?_, ?_, ?_⟩
  · have hderives := ha.derives
    rw [strip_cons_of_none hbase] at hderives
    rw [strip_append]
    exact hderives.trans (hb.derives.context [] (strip base γ))
  · intro α x δ hsplit hne hα hx hback
    rcases hsplits α x δ hsplit hα with ⟨δ', hβ⟩ | ⟨α', rfl, hα'⟩
    · exact hb.exposed α x δ' hβ hne hα hx (hback.trans hcorner.to_reflTransGen)
    · exact ha.exposed (b :: α') x δ rfl (List.cons_ne_nil _ _) hα' hx hback
  · intro α h δ c hsplit hα hh
    rcases hsplits α h δ hsplit hα with ⟨δ', hβ⟩ | ⟨α', rfl, hα'⟩
    · obtain ⟨hc, hreach⟩ := hb.helper α h δ' c hβ hα hh
      exact ⟨hc, hcorner.to_reflTransGen.trans hreach⟩
    · exact ha.helper (b :: α') h δ c rfl hα' hh

/-- **A helper at the end is faithful** to the nonterminal that it serves. -/
theorem append_helper (hu : Faithful rules base a u) (hh : base h = some a) :
    Faithful rules base a (u ++ [h]) where
  derives := by
    rw [strip_append, strip_cons_of_some hh]
    simpa [strip] using hu.derives
  exposed := by
    intro α x β hsplit hne hα hx
    rcases split_append_singleton hsplit with ⟨-, rfl⟩ | ⟨β', rfl⟩
    · rw [hh] at hx
      cases hx
    · exact hu.exposed α x β' rfl hne hα hx
  helper := by
    intro α h' β b hsplit hα hh'
    rcases split_append_singleton hsplit with ⟨rfl, rfl⟩ | ⟨β', rfl⟩
    · rw [hh] at hh'
      cases hh'
      exact ⟨hu.vanishes hα, .refl⟩
    · exact hu.helper α h' β' b rfl hα hh'

end Faithful

/-! ## All rules -/

/-- What holds of all rules while the elimination of `rules` is under way. -/
structure Sound (rules : List Rule) (base : Symbol → Option Symbol) (current : List Rule) :
    Prop where
  original : ∀ r ∈ current, base r.lhs = none → Faithful rules base r.lhs r.rhs
  helper : ∀ r ∈ current, ∀ b, base r.lhs = some b → r.rhs = [] ∨
    ∃ α, r.rhs = α ++ [r.lhs] ∧ base b = none ∧ Faithful rules base b (b :: α) ∧
      ∀ s ∈ α, base s ≠ none → s.index < r.lhs.index

theorem sound_start (hhides : ∀ r ∈ rules, ¬Hides rules r) :
    Sound rules (fun _ => none) rules where
  original := fun r hr _ => .of_rule hr (hhides r hr)
  helper := by rintro _ _ _ ⟨⟩

section Steps

variable {drafts : List Draft} {helper : Symbol} {name : String}

theorem Sound.substitute (hsound : Sound rules base (rulesOf drafts)) (ha : base a = none)
    (hb : base b = none) :
    Sound rules base (rulesOf (Elimination.substitute a b drafts)) where
  original := by
    intro r hr hnone
    rcases mem_rulesOf_substitute_iff.mp hr with ⟨hr, -⟩ | ⟨γ, β, hγ, hβ, rfl⟩
    · exact hsound.original r hr hnone
    · exact (hsound.original _ hγ ha).substitute (hsound.original _ hβ hb) hb
  helper := by
    intro r hr c hc
    rcases mem_rulesOf_substitute_iff.mp hr with ⟨hr, -⟩ | ⟨γ, β, -, -, rfl⟩
    · exact hsound.helper r hr c hc
    · rw [ha] at hc
      cases hc

theorem Sound.turnAround (hsound : Sound rules base (rulesOf drafts))
    (hfresh : ∀ r ∈ rulesOf drafts, r.lhs ≠ helper ∧ helper ∉ r.rhs)
    (hlt : ∀ r ∈ rulesOf drafts, ∀ s ∈ r.rhs, s.index < helper.index)
    (hbases : ∀ s, base s ≠ some helper) (ha : base a = none) (hne : a ≠ helper)
    (hself : base' helper = some a) (hother : ∀ s, s ≠ helper → base' s = base s) :
    Sound rules base' (rulesOf (Elimination.turnAround a helper name drafts)) := by
  -- The helper is new, so what the present rules stand for does not change with its base.
  have hnot : ∀ r ∈ rulesOf drafts, ∀ s ∈ r.rhs, base' s = base s := by
    intro r hr s hs
    refine hother s ?_
    rintro rfl
    exact (hfresh r hr).2 hs
  refine ⟨fun r hr hnone => ?_, fun r hr c hc => ?_⟩
  · rcases mem_rulesOf_turnAround_iff.mp hr with
      (⟨hr, -⟩ | ⟨β, hβ, -, rfl⟩) | ⟨α, -, rfl⟩ | rfl
    · rw [hother _ (hfresh r hr).1] at hnone
      exact (hsound.original r hr hnone).congr (hnot r hr)
    · exact ((hsound.original _ hβ ha).congr (hnot _ hβ)).append_helper hself
    · rw [hself] at hnone
      cases hnone
    · rw [hself] at hnone
      cases hnone
  · rcases mem_rulesOf_turnAround_iff.mp hr with
      (⟨hr, -⟩ | ⟨β, hβ, -, rfl⟩) | ⟨α, hα, rfl⟩ | rfl
    · rw [hother _ (hfresh r hr).1] at hc
      refine (hsound.helper r hr c hc).imp_right ?_
      rintro ⟨α, hrhs, hbase, hfaithful, hindex⟩
      have hcne : c ≠ helper := by
        rintro rfl
        exact hbases _ hc
      have hsame : ∀ s ∈ c :: α, base' s = base s := by
        intro s hs
        rcases List.mem_cons.mp hs with rfl | hs
        · exact hother _ hcne
        · exact hnot r hr s (by rw [hrhs]; exact List.mem_append_left _ hs)
      refine ⟨α, hrhs, (hother c hcne).trans hbase, hfaithful.congr hsame, fun s hs hsome => ?_⟩
      rw [hsame s (List.mem_cons_of_mem _ hs)] at hsome
      exact hindex s hs hsome
    · rw [hother a hne, ha] at hc
      cases hc
    · rw [hself] at hc
      cases hc
      refine Or.inr ⟨α, rfl, (hother _ hne).trans ha, ?_, fun s hs _ => ?_⟩
      · exact (hsound.original _ hα ha).congr (hnot _ hα)
      · exact hlt _ hα s (List.mem_cons_of_mem _ hs)
    · exact Or.inl rfl

end Steps

/-! ## No left recursion is left -/

/-- The rules of a nonterminal lead back to it through later nonterminals only. -/
def Ordered (rules : List Rule) (base : Symbol → Option Symbol) (current : List Rule)
    (a : Symbol) : Prop :=
  ∀ z γ, ⟨a, z :: γ⟩ ∈ current → base z = none → ReflTransGen (Corner rules) z a →
    a.index < z.index

theorem Ordered.of_kept {current current' : List Rule} (h : Ordered rules base current a)
    (hrules : ∀ r ∈ current', r.lhs = a → r ∈ current)
    (hbase : ∀ z, base' z = none → base z = none) : Ordered rules base' current' a := by
  intro z γ hrule hz hback
  exact h z γ (hrules _ hrule rfl) (hbase z hz) hback

/-- The symbol of the grammar that a symbol stands for. -/
def shadow (base : Symbol → Option Symbol) (s : Symbol) : Symbol := (base s).getD s

/-- The nonterminal that a helper serves vanishes. -/
def Grounded (rules : List Rule) (base : Symbol → Option Symbol) (s : Symbol) : Prop :=
  ∀ b, base s = some b → Vanishes rules b

section NoRecursion

variable {current : List Rule} {y z : Symbol} (hsound : Sound rules base current)
include hsound

theorem fades_of_vanishes (hs : Vanishes current s) : Fades rules base s := by
  induction hs with
  | @rule r hr _ ih =>
      by_cases hbase : base r.lhs = none
      · exact Or.inr ((hsound.original r hr hbase).vanishes ih)
      · exact Or.inl hbase

/-- A corner of the current rules is shadowed by corners of the grammar, and does not lead to a
helper unless what the helper serves vanishes. -/
theorem shadow_corner (hy : Grounded rules base y) (hcorner : Corner current y z) :
    ReflTransGen (Corner rules) (shadow base y) (shadow base z) ∧ Grounded rules base z := by
  obtain ⟨r, hr, rfl, α, β, hrhs, hα, -⟩ := hcorner
  have hfade : ∀ s ∈ α, Fades rules base s := fun s hs => fades_of_vanishes hsound (hα s hs)
  -- Be `y` a helper or not, `z` stands on a right-hand side that is faithful to its shadow.
  have key : ∀ a α' β', Faithful rules base a (α' ++ z :: β') →
      (∀ s ∈ α', Fades rules base s) →
      ReflTransGen (Corner rules) a (shadow base z) ∧ Grounded rules base z := by
    intro a α' β' hfaithful hα'
    cases hz : base z with
    | none =>
        rw [shadow, hz, Grounded, hz]
        refine ⟨(hfaithful.corner hα' hz).to_reflTransGen, ?_⟩
        rintro _ ⟨⟩
    | some b =>
        obtain ⟨hb, hreach⟩ := hfaithful.helper α' z β' b rfl hα' hz
        rw [shadow, hz, Grounded, hz]
        refine ⟨hreach, ?_⟩
        rintro _ ⟨⟩
        exact hb
  cases hbase : base r.lhs with
  | none =>
      have hfaithful := hsound.original r hr hbase
      rw [hrhs] at hfaithful
      rw [shadow, hbase]
      exact key r.lhs α β hfaithful hfade
  | some b =>
      rcases hsound.helper r hr b hbase with hnil | ⟨δ, hδ, -, hfaithful, -⟩
      · rw [hnil] at hrhs
        exact absurd hrhs (by simp)
      · rcases split_append_singleton (hδ.symm.trans hrhs) with ⟨-, rfl⟩ | ⟨β', rfl⟩
        · exact ⟨.refl, hy⟩
        · rw [shadow, hbase]
          refine key b (b :: α) β' hfaithful fun s hs => ?_
          rcases List.mem_cons.mp hs with rfl | hs
          · exact Or.inr (hy s hbase)
          · exact hfade s hs

theorem shadow_corners (hy : Grounded rules base y) (h : ReflTransGen (Corner current) y z) :
    ReflTransGen (Corner rules) (shadow base y) (shadow base z) ∧ Grounded rules base z := by
  induction h with
  | refl => exact ⟨.refl, hy⟩
  | tail _ hstep ih =>
      obtain ⟨hreach, hground⟩ := ih
      obtain ⟨hlast, hground'⟩ := shadow_corner hsound hground hstep
      exact ⟨hreach.trans hlast, hground'⟩

/-- What fades before a symbol of the grammar that leads back to a helper cannot be there: the
helper would hide left recursion of the nonterminal that it serves. -/
theorem not_leads_back (hbase : base h = some b)
    (hfaithful : Faithful rules base b (b :: α ++ z :: β))
    (hα : ∀ s ∈ α, Fades rules base s) (hz : base z = none) :
    ¬ReflTransGen (Corner current) z h := by
  intro hback
  have hground : Grounded rules base z := by
    rw [Grounded, hz]
    rintro _ ⟨⟩
  obtain ⟨hreach, hvanish⟩ := shadow_corners hsound hground hback
  rw [shadow, shadow, hz, hbase] at hreach
  refine hfaithful.exposed (b :: α) z β rfl (List.cons_ne_nil _ _) (fun s hs => ?_) hz hreach
  rcases List.mem_cons.mp hs with rfl | hs
  · exact Or.inr (hvanish s hbase)
  · exact hα s hs

/-- From a helper a cycle of corners leads to helpers that were created earlier. -/
theorem index_lt_of_helper (hcycle : ∀ s, ¬Cyclic rules s) (hbase : base y = some b)
    (hcorner : Corner current y z) (hback : ReflTransGen (Corner current) z y) :
    base z ≠ none ∧ z.index < y.index := by
  obtain ⟨r, hr, rfl, α, β, hrhs, hα, -⟩ := hcorner
  have hfade : ∀ s ∈ α, Fades rules base s := fun s hs => fades_of_vanishes hsound (hα s hs)
  rcases hsound.helper r hr b hbase with hnil | ⟨δ, hδ, hb, hfaithful, hindex⟩
  · rw [hnil] at hrhs
    exact absurd hrhs (by simp)
  · rcases split_append_singleton (hδ.symm.trans hrhs) with ⟨rfl, -⟩ | ⟨β', rfl⟩
    · -- All before the helper fades, so what it serves would derive itself alone.
      have hself := hfaithful.derives
      rw [strip_cons_of_none hb] at hself
      have htail : Derives rules (b :: strip base α) [b] :=
        Derives.append (u := [b]) .refl (derives_nil_iff.mpr (allVanish_strip hfade))
      exact absurd (hself.trans_left htail) (hcycle b)
    · have hz : base z ≠ none := fun hnone =>
        not_leads_back hsound hbase hfaithful hfade hnone hback
      exact ⟨hz, hindex z (by simp) hz⟩

/-- From one symbol of the grammar to the next a cycle of corners leads to later ones. -/
theorem index_lt_of_original (hordered : Ordered rules base current y) (hbase : base y = none)
    (hz : base z = none) (hcorner : Corner current y z)
    (hback : ReflTransGen (Corner current) z y) : y.index < z.index := by
  obtain ⟨r, hr, rfl, α, β, hrhs, hα, -⟩ := hcorner
  have hfade : ∀ s ∈ α, Fades rules base s := fun s hs => fades_of_vanishes hsound (hα s hs)
  have hground : Grounded rules base z := by
    rw [Grounded, hz]
    rintro _ ⟨⟩
  have hreach := (shadow_corners hsound hground hback).1
  rw [shadow, shadow, hz, hbase] at hreach
  -- Behind symbols that fade nothing leads back, so the corner is the first symbol.
  have hnil : α = [] := by
    by_contra hne
    exact (hsound.original r hr hbase).exposed α z β hrhs hne hfade hz hreach
  rw [hnil, List.nil_append] at hrhs
  refine hordered z β ?_ hz hreach
  rw [← hrhs]
  exact hr

/-- On a cycle of corners helpers would come down, and symbols of the grammar go up, in creation
order. -/
def rank (base : Symbol → Option Symbol) (bound : Nat) (s : Symbol) : Nat :=
  if base s = none then 2 * bound - s.index else s.index

variable (hcycle : ∀ s, ¬Cyclic rules s)
  (hordered : ∀ a, base a = none → Ordered rules base current a) {bound : Nat}
  (hbound : ∀ r ∈ current, r.lhs.index < bound ∧ ∀ s ∈ r.rhs, s.index < bound)
include hcycle hordered hbound

theorem rank_lt (hcorner : Corner current y z) (hback : ReflTransGen (Corner current) z y) :
    rank base bound z < rank base bound y := by
  have hindex : y.index < bound ∧ z.index < bound := by
    obtain ⟨r, hr, rfl, α, β, hrhs, -⟩ := hcorner
    exact ⟨(hbound r hr).1, (hbound r hr).2 z (by rw [hrhs]; simp)⟩
  unfold rank
  cases hbase : base y with
  | none =>
      cases hz : base z with
      | none =>
          have hlt := index_lt_of_original hsound (hordered y hbase) hbase hz hcorner hback
          simp only [if_true]
          omega
      | some c =>
          simp only [reduceCtorEq, if_true, if_false]
          omega
  | some b =>
      obtain ⟨hz, hlt⟩ := index_lt_of_helper hsound hcycle hbase hcorner hback
      simp only [reduceCtorEq, if_neg hz, if_false]
      exact hlt

/-- **No left recursion is left** once the rules of every nonterminal lead to later ones. -/
theorem not_transGen_corner (y : Symbol) : ¬TransGen (Corner current) y y := by
  intro h
  have key : ∀ z, TransGen (Corner current) y z → ReflTransGen (Corner current) z y →
      rank base bound z < rank base bound y := by
    intro z hz
    induction hz with
    | single hstep => exact fun hback => rank_lt hsound hcycle hordered hbound hstep hback
    | @tail w z hw hstep ih =>
        intro hback
        have hfirst := ih (.head hstep hback)
        have hlast := rank_lt hsound hcycle hordered hbound hstep
          (hback.trans hw.to_reflTransGen)
        exact Nat.lt_trans hlast hfirst
  exact Nat.lt_irrefl _ (key y h .refl)

end NoRecursion

end TopDown.Transform.Elimination
