import TopDown.Proofs.Elimination.Outcome
import TopDown.Proofs.Transform.Cutoff

/-!
# The drafts of an elimination grow

A substitution makes the list of drafts shorter only if the nonterminal that is substituted has no
rules any more. It can lose them all, but not while another nonterminal waits for it: as long as
`t` is not treated, whatever leads to `t` and back still does so by first symbols alone.

* `Linked` is that invariant; `linked_start`, `Linked.substitute` and `Linked.turnAround` carry it
  through a run.
* `Between` and `Within` join it with `Underway` and `Pending`: the states of a run between two
  nonterminals, and within the treatment of one. The lemmas of `Within` are the steps.
* `length_le_length_substitute`, `length_turnAround`: neither step makes the list shorter.
* `thresholded_eliminateLeftRecursion`: so the limit is a cutoff of the whole elimination.
-/

namespace TopDown.Transform.Elimination

open Relation

variable {g : Grammar} {options : Options} {corners : SymbolRelation} {p : Progress}
  {a b h t x y : Symbol} {name : String} {drafts : List Draft} {r : Rule} {earlier : List Symbol}

/-! ## Lengths -/

theorem length_le_length_flatMap {f : Draft → List Draft} (hf : ∀ d ∈ drafts, f d ≠ []) :
    drafts.length ≤ (drafts.flatMap f).length := by
  induction drafts with
  | nil => exact Nat.le_refl _
  | cons d drafts ih =>
      have hd := List.length_pos_of_ne_nil (hf d List.mem_cons_self)
      have htail := ih fun e he => hf e (List.mem_cons_of_mem _ he)
      rw [List.flatMap_cons, List.length_append, List.length_cons]
      omega

/-- A nonterminal that has rules has right-hand sides to put in. -/
theorem expansions_ne_nil (hr : r ∈ rulesOf drafts) : expansions r.lhs drafts ≠ [] := by
  obtain ⟨e, he, rfl⟩ := mem_rulesOf_iff.mp hr
  refine List.ne_nil_of_mem (List.mem_map_of_mem (a := e) (List.mem_filter.mpr ⟨he, ?_⟩))
  exact decide_eq_true rfl

/-- A substitution that has something to put in makes the list no shorter. -/
theorem length_le_length_substitute (hb : ∃ r ∈ rulesOf drafts, r.lhs = b) :
    drafts.length ≤ (substitute a b drafts).length := by
  obtain ⟨r, hr, rfl⟩ := hb
  refine length_le_length_flatMap fun d _ => ?_
  split
  · simpa using expansions_ne_nil hr
  · exact List.cons_ne_nil _ _

/-- Turning recursion around adds the empty rule of the helper. -/
theorem length_turnAround : (turnAround a h name drafts).length = drafts.length + 1 := by
  have hsplit := List.length_eq_length_filter_add (l := drafts) (isRecursive a)
  simp only [turnAround, seeds, helperDrafts, recursiveTails, List.length_append,
    List.length_map, List.length_mapIdx, List.length_singleton]
  omega

/-! ## Chains of first symbols -/

/-- What leads to a nonterminal that is not treated yet, and back, does so by first symbols. -/
def Linked (g : Grammar) (earlier : List Symbol) (current : List Rule) : Prop :=
  ∀ x t, TransGen (Corner g.system.rules) x t → TransGen (Corner g.system.rules) t x →
    t ∉ earlier → TransGen (Fronts current) x t

theorem fronts_of_corner {rules : List Rule} (hhides : ∀ r ∈ rules, ¬Hides rules r)
    (hcorner : Corner rules x y) (hback : ReflTransGen (Corner rules) y x) : Fronts rules x y := by
  obtain ⟨r, hr, rfl, α, β, hrhs, hα, -⟩ := hcorner
  have hnil : α = [] := by
    by_contra hne
    exact hhides r hr (hides_iff.mpr ⟨α, y, β, hrhs, hne, hα, hback⟩)
  rw [hnil] at hrhs
  exact ⟨r, hr, rfl, by rw [hrhs]; rfl⟩

theorem linked_start (hhides : ∀ r ∈ g.system.rules, ¬Hides g.system.rules r) :
    Linked g [] g.system.rules := by
  intro x t hto hback _
  have key : ∀ y, TransGen (Corner g.system.rules) x y →
      ReflTransGen (Corner g.system.rules) y x → TransGen (Fronts g.system.rules) x y := by
    intro y hy
    induction hy with
    | single hstep => exact fun hback => .single (fronts_of_corner hhides hstep hback)
    | tail hw hstep ih =>
        intro hback
        have hlast := fronts_of_corner hhides hstep (hback.trans hw.to_reflTransGen)
        exact (ih (.head hstep hback)).tail hlast
  exact key t hto hback.to_reflTransGen

theorem Linked.mono {current : List Rule} {earlier' : List Symbol} (hl : Linked g earlier current)
    (hearlier : earlier ⊆ earlier') : Linked g earlier' current :=
  fun x t hto hback ht => hl x t hto hback fun hmem => ht (hearlier hmem)

/-- A chain that goes through `b` gets around it, unless it ends there. -/
theorem transGen_fronts_substitute (hne : b ≠ a) (ht : t ≠ b)
    (hchain : TransGen (Fronts (rulesOf drafts)) x t) :
    TransGen (Fronts (rulesOf (substitute a b drafts))) x t := by
  have hkept : ∀ y z, Fronts (rulesOf drafts) y z → ¬(y = a ∧ z = b) →
      Fronts (rulesOf (substitute a b drafts)) y z := by
    rintro y z ⟨r, hr, hlhs, hhead⟩ hnot
    refine ⟨r, mem_rulesOf_substitute_iff.mpr (Or.inl ⟨hr, ?_⟩), hlhs, hhead⟩
    rintro ⟨ha, γ, hγ⟩
    rw [hγ] at hhead
    exact hnot ⟨hlhs.symm.trans ha, (Option.some.inj hhead).symm⟩
  have haround : ∀ z, Fronts (rulesOf drafts) a b →
      Fronts (rulesOf (substitute a b drafts)) b z →
      Fronts (rulesOf (substitute a b drafts)) a z := by
    rintro z ⟨⟨_, rhs⟩, hr, rfl, hhead⟩ ⟨⟨_, rhs'⟩, hr', rfl, hhead'⟩
    obtain ⟨γ, rfl⟩ := List.head?_eq_some_iff.mp hhead
    obtain ⟨δ, rfl⟩ := List.head?_eq_some_iff.mp hhead'
    have hexpansion := mem_rulesOf_of_substitute hr' hne
    exact ⟨_, mem_rulesOf_substitute_iff.mpr (Or.inr ⟨γ, z :: δ, hr, hexpansion, rfl⟩), rfl, rfl⟩
  induction hchain using TransGen.head_induction_on with
  | single hstep => exact .single (hkept _ _ hstep fun h => ht h.2)
  | @head y z hstep _ ih =>
      by_cases hnot : y = a ∧ z = b
      · obtain ⟨rfl, rfl⟩ := hnot
        obtain ⟨w, hw, hrest⟩ := TransGen.head'_iff.mp ih
        exact TransGen.head' (haround w hstep hw) hrest
      · exact ih.head (hkept y z hstep hnot)

/-- A chain that does not end at `a` can do without the rules of `a` that are turned around. -/
theorem transGen_fronts_turnAround (ht : t ≠ a)
    (hchain : TransGen (Fronts (rulesOf drafts)) x t) :
    TransGen (Fronts (rulesOf (turnAround a h name drafts))) x t := by
  have hkept : ∀ y z, Fronts (rulesOf drafts) y z → ¬(y = a ∧ z = a) →
      Fronts (rulesOf (turnAround a h name drafts)) y z := by
    rintro _ z ⟨⟨y, rhs⟩, hr, rfl, hhead⟩ hnot
    obtain ⟨γ, rfl⟩ := List.head?_eq_some_iff.mp hhead
    by_cases hy : y = a
    · subst hy
      refine ⟨⟨y, z :: γ ++ [h]⟩, mem_rulesOf_turnAround_iff.mpr ?_, rfl, rfl⟩
      refine Or.inl (Or.inr ⟨z :: γ, hr, fun δ hδ => hnot ⟨rfl, ?_⟩, rfl⟩)
      exact (List.cons_eq_cons.mp hδ).1
    · exact ⟨_, mem_rulesOf_turnAround_iff.mpr (Or.inl (Or.inl ⟨hr, hy⟩)), rfl, rfl⟩
  induction hchain using TransGen.head_induction_on with
  | single hstep => exact .single (hkept _ _ hstep fun h => ht h.2)
  | @head y z hstep _ ih =>
      by_cases hnot : y = a ∧ z = a
      · obtain ⟨rfl, rfl⟩ := hnot
        exact ih
      · exact ih.head (hkept y z hstep hnot)

theorem Linked.substitute (hl : Linked g earlier (rulesOf drafts)) (hb : b ∈ earlier)
    (hne : b ≠ a) : Linked g earlier (rulesOf (substitute a b drafts)) := by
  intro x t hto hback ht
  refine transGen_fronts_substitute hne ?_ (hl x t hto hback ht)
  rintro rfl
  exact ht hb

theorem Linked.turnAround (hl : Linked g earlier (rulesOf drafts)) :
    Linked g (earlier ++ [a]) (rulesOf (turnAround a h name drafts)) := by
  intro x t hto hback ht
  rw [List.mem_append, not_or, List.mem_singleton] at ht
  exact transGen_fronts_turnAround ht.2 (hl x t hto hback ht.1)

/-- A nonterminal that another one waits for has rules. -/
theorem Linked.exists_rule {current : List Rule} (hl : Linked g earlier current)
    (hto : TransGen (Corner g.system.rules) b a) (hback : TransGen (Corner g.system.rules) a b)
    (ha : a ∉ earlier) : ∃ r ∈ current, r.lhs = b := by
  obtain ⟨y, ⟨r, hr, hlhs, -⟩, -⟩ := TransGen.head'_iff.mp (hl b a hto hback ha)
  exact ⟨r, hr, hlhs⟩

/-! ## The invariants of a run together -/

def Between (g : Grammar) (options : Options) (earlier : List Symbol) (p : Progress) : Prop :=
  ∃ served, Underway g options earlier served p ∧ Linked g earlier (rulesOf p.drafts)

/-- What holds of a run that treats `a`, while some corners are still to come. -/
def Within (g : Grammar) (options : Options) (earlier rest : List Symbol) (a : Symbol)
    (p : Progress) : Prop :=
  ∃ served, Underway g options earlier served p ∧ Linked g earlier (rulesOf p.drafts) ∧
    Pending g served (rulesOf p.drafts) rest a

theorem between_start (hg : g.WellFormed) (hhides : ∀ r ∈ g.system.rules, ¬Hides g.system.rules r)
    (journal : Array Event) : Between g options [] (.start g journal) := by
  refine ⟨[], underway_start hg hhides journal, ?_⟩
  show Linked g [] (rulesOf g.drafts)
  rw [← rules_eq_rulesOf]
  exact linked_start hhides

section Treat

variable {later rest : List Symbol} {c : Symbol}
  (horder : g.symbols.nonterminals = earlier ++ a :: later)
include horder

theorem Between.within (hg : g.WellFormed) (hp : Between g options earlier p) :
    Within g options earlier earlier a p := by
  obtain ⟨served, hp, hl⟩ := hp
  exact ⟨served, hp, hl, fun _ _ _ _ hback => mem_earlier_or horder hg hback⟩

namespace Within

omit horder in
theorem tracks (hp : Within g options earlier rest a p) : p.Tracks g := by
  obtain ⟨_, hp, -⟩ := hp
  exact hp.tracks

theorem skip (hcorners : ∀ s t, corners.holds s t = true ↔ TransGen (Corner g.system.rules) s t)
    (hc : c ∈ earlier) (hskip : corners.holds c a = true → ∀ γ, ⟨a, c :: γ⟩ ∉ rulesOf p.drafts)
    (hp : Within g options earlier (c :: rest) a p) : Within g options earlier rest a p := by
  obtain ⟨served, hp, hl, hpending⟩ := hp
  exact ⟨served, hp, hl, pending_of_skip horder hcorners hc hskip hpending⟩

/-- A nonterminal that is to be substituted, as `a` has a rule that starts with it, has rules. -/
theorem exists_rule (hp : Within g options earlier rest a p) (hc : c ∈ earlier)
    (hreach : TransGen (Corner g.system.rules) c a)
    (hrule : ∃ γ, ⟨a, c :: γ⟩ ∈ rulesOf p.drafts) : ∃ r ∈ rulesOf p.drafts, r.lhs = c := by
  obtain ⟨served, hp, hl, -⟩ := hp
  obtain ⟨γ, hγ⟩ := hrule
  have hcorner : TransGen (Corner g.system.rules) a c :=
    (hp.sound.original _ hγ (hp.baseOf_of_mem_order horder (by simp))).corner (α := [])
      (by simp) (hp.baseOf_of_mem_order horder (List.mem_append_left _ hc))
  exact hl.exists_rule hreach hcorner (not_mem_earlier horder)

theorem substitute (hg : g.WellFormed) (hsuffix : c :: rest <:+ earlier)
    (hreach : TransGen (Corner g.system.rules) c a)
    (hp : Within g options earlier (c :: rest) a p) (journal : Array Event) :
    Within g options earlier rest a
      { p with drafts := Elimination.substitute a c p.drafts, changed := true, journal } := by
  obtain ⟨served, hp, hl, hpending⟩ := hp
  have hc : c ∈ earlier := hsuffix.subset List.mem_cons_self
  have hne : c ≠ a := by
    rintro rfl
    exact not_mem_earlier horder hc
  exact ⟨served, hp.substitute horder hc hreach journal, hl.substitute hc hne,
    hp.pending_substitute horder hg hsuffix hpending⟩

omit horder in
theorem keep (hnone : ∀ γ, ⟨a, a :: γ⟩ ∉ rulesOf p.drafts)
    (hp : Within g options earlier [] a p) : Between g options (earlier ++ [a]) p := by
  obtain ⟨served, hp, hl, hpending⟩ := hp
  exact ⟨served, hp.keep hpending hnone, hl.mono (List.subset_append_left _ _)⟩

theorem turnAround (hrec : ∃ γ, ⟨a, a :: γ⟩ ∈ rulesOf p.drafts)
    (hp : Within g options earlier [] a p) (journal : Array Event) :
    let issued := p.introduce options a
    Between g options (earlier ++ [a])
      { issued.2 with
        drafts := Elimination.turnAround a issued.1 (issued.2.name issued.1) p.drafts
        changed := true
        journal } := by
  obtain ⟨served, hp, hl, hpending⟩ := hp
  exact ⟨_, hp.turnAround horder hpending hrec journal, hl.turnAround⟩

end Within

end Treat

/-! ## Steps under every limit -/

variable {I : Progress → Prop}

theorem settles_substituteCorner
    (skip : (corners.holds b a = true → ∀ γ, ⟨a, b :: γ⟩ ∉ rulesOf p.drafts) → I p)
    (replace : corners.holds b a = true → (∃ γ, ⟨a, b :: γ⟩ ∈ rulesOf p.drafts) →
      p.drafts.length ≤ (substitute a b p.drafts).length ∧
      ∀ journal, I { p with drafts := substitute a b p.drafts, changed := true, journal }) :
    Settles I p fun limit => substituteCorner { options with limit } corners a p b := by
  by_cases h : (corners.holds b a && p.drafts.any (startsWith a b)) = true
  · obtain ⟨journal, heq⟩ := exists_substituteCorner_eq options h
    rw [Bool.and_eq_true, any_startsWith_iff] at h
    obtain ⟨hgrows, hI⟩ := replace h.1 h.2
    simp only [heq]
    exact Settles.of_submit (hI journal) hgrows
  · simp only [substituteCorner, if_neg h]
    rw [Bool.and_eq_true, any_startsWith_iff, not_and] at h
    exact .unchanged (skip fun hc γ hγ => h hc ⟨γ, hγ⟩) fun _ => rfl

theorem settles_removeDirect (skip : (∀ γ, ⟨a, a :: γ⟩ ∉ rulesOf p.drafts) → I p)
    (acyclic : ⟨a, [a]⟩ ∉ rulesOf p.drafts)
    (replace : (∃ γ, ⟨a, a :: γ⟩ ∈ rulesOf p.drafts) → ∀ journal,
      let issued := p.introduce options a
      I { issued.2 with
        drafts := turnAround a issued.1 (issued.2.name issued.1) p.drafts
        changed := true
        journal }) :
    Settles I p fun limit => removeDirect { options with limit } a p := by
  by_cases hnil : recursiveTails a p.drafts = []
  · refine .unchanged (skip fun γ hγ => ?_) fun limit => ?_
    · rw [← mem_recursiveTails_iff, hnil] at hγ
      cases hγ
    · rw [removeDirect, hnil]
      rfl
  · obtain ⟨α, hα⟩ := List.exists_mem_of_ne_nil _ hnil
    have hI := replace ⟨α, mem_recursiveTails_iff.mp hα⟩
    have hany : (recursiveTails a p.drafts).any (·.isEmpty) = false := by
      rw [List.any_eq_false]
      rintro β hβ hempty
      rw [List.isEmpty_iff.mp hempty, mem_recursiveTails_iff] at hβ
      exact acyclic hβ
    obtain ⟨journal, heq⟩ := exists_removeDirect_eq options hnil hany
    simp only [heq]
    refine Settles.of_submit (hI journal) ?_
    rw [length_turnAround]
    exact Nat.le_succ _

/-! ## The run under every limit -/

/-- Treating one nonterminal, as in `meets_treat`. -/
theorem settles_treat {J : List Symbol → Progress → Prop} (hp : J earlier p)
    (substitution : ∀ c rest p, c :: rest <:+ earlier → J (c :: rest) p →
      Settles (J rest) p fun limit => substituteCorner { options with limit } corners a p c)
    (direct : ∀ p, J [] p → Settles I p fun limit => removeDirect { options with limit } a p) :
    Settles I p fun limit => treat { options with limit } corners earlier a p := by
  have hfold : ∀ rest p, rest <:+ earlier → J rest p → Settles (J []) p fun limit =>
      rest.foldlM (substituteCorner { options with limit } corners a) p := by
    intro rest
    induction rest with
    | nil => exact fun p _ hp => .unchanged hp fun _ => rfl
    | cons c rest ih =>
        intro p hsuffix hp
        simp only [List.foldlM_cons]
        have hrest : rest <:+ earlier := (List.suffix_cons c rest).trans hsuffix
        exact (substitution c rest p hsuffix hp).bind fun q hq => ih q hrest hq
  exact (hfold earlier p (List.suffix_refl _) hp).bind direct

/-- All nonterminals in turn, as in `meets_treatAll`. -/
theorem settles_treatAll {order : List Symbol} {K : List Symbol → Progress → Prop}
    (step : ∀ earlier a rest p, order = earlier ++ a :: rest → K earlier p →
      Settles (K (earlier ++ [a])) p fun limit => treat { options with limit } corners earlier a p)
    {rest : List Symbol} (horder : order = earlier ++ rest) (hp : K earlier p) :
    Settles (K order) p fun limit => treatAll { options with limit } corners earlier p rest := by
  induction rest generalizing earlier p with
  | nil =>
      rw [List.append_nil] at horder
      rw [horder]
      exact .unchanged hp fun _ => rfl
  | cons a rest ih =>
      refine Settles.bind (step earlier a rest p horder hp) fun q hq => ?_
      exact ih (by rw [horder, List.append_assoc]; rfl) hq

section Run

variable (hg : g.WellFormed) (hcycle : ∀ s, ¬Cyclic g.system.rules s)
include hg hcycle

variable (options) in
/-- **The run settles.** In addition to what `underway_treatAll` says, the drafts get no fewer. -/
theorem settles_run (hcorners : ∀ s t, corners.holds s t = true ↔
      TransGen (Corner g.system.rules) s t)
    (hp : Between g options [] p) :
    Settles (Between g options g.symbols.nonterminals) p fun limit =>
      treatAll { options with limit } corners [] p g.symbols.nonterminals := by
  refine settles_treatAll (K := Between g options) ?_ (List.nil_append _).symm hp
  intro earlier a later p horder hp
  refine settles_treat (J := fun rest q => Within g options earlier rest a q)
    (hp.within horder hg) ?_ ?_
  · intro c rest p hsuffix hp
    have hc : c ∈ earlier := hsuffix.subset List.mem_cons_self
    refine settles_substituteCorner (fun hskip => hp.skip horder hcorners hc hskip)
      fun hholds hrule => ?_
    have hreach := (hcorners c a).mp hholds
    exact ⟨length_le_length_substitute (hp.exists_rule horder hc hreach hrule),
      hp.substitute horder hg hsuffix hreach⟩
  · intro p hp
    refine settles_removeDirect (fun hnone => hp.keep hnone) (fun hself => ?_)
      fun hrec journal => hp.turnAround horder hrec journal
    obtain ⟨served, hp, -, -⟩ := hp
    have ha := hp.baseOf_of_mem_order horder (s := a) (by simp)
    have hderives := (hp.sound.original _ hself ha).derives
    rw [strip_cons_of_none ha] at hderives
    exact absurd hderives (hcycle a)

variable (options) in
theorem thresholded_eliminateLeftRecursion
    (hhides : ∀ q ∈ g.productions, ¬Hides g.system.rules q.toRule)
    (hrec : ∃ a, LeftRecursive g.system.rules a) :
    Thresholded fun limit => g.eliminateLeftRecursion { options with limit } := by
  have hclear : ∀ limit, g.eliminateLeftRecursion { options with limit } =
      run g { options with limit } #[.ofClosure g.system] := by
    exact fun limit => eliminateLeftRecursion_of_clear ((cycle?_eq_none_iff hg).mpr hcycle)
      ((hiddenRecursion?_eq_none_iff hg).mpr hhides)
  have hrules : ∀ r ∈ g.system.rules, ¬Hides g.system.rules r := List.forall_mem_map.mpr hhides
  refine Settles.thresholded hg (settles_run options hg hcycle
    (fun _ _ => RuleSystem.holds_vanishingCorners_iff hg.isScoped)
    (between_start hg hrules (#[.ofClosure g.system] ++
      #[.ofClosure g.system, .eliminating g.symbols.nonterminals.length]))) ?_ ?_ ?_ ?_
  · rintro ⟨served, hserved, -⟩
    obtain ⟨a, ha⟩ := hrec
    have hnil : served = [] := List.map_eq_nil_iff.mp hserved.helpers
    exact hserved.served_ne_nil hg (leftRecursive_iff.mp ha) hnil
  · rintro q ⟨served, hserved, -⟩
    exact hserved.tracks
  · rintro q ⟨served, hserved, -⟩
    rcases conclude_cases q with ⟨journal, hcommit⟩ | ⟨journal, error, hsome, -⟩
    · refine ⟨journal, fun limit hq => ?_⟩
      rw [hclear, run, hq]
      exact hcommit
    · rw [remainder?_eq_none hcycle hserved] at hsome
      cases hsome
  · intro limit failure hfail
    rw [hclear, run, hfail]

end Run

end TopDown.Transform.Elimination
