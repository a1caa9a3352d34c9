import TopDown.Proofs.Transform.Tracking
import TopDown.Transform.Elimination

/-!
# The steps of the elimination

* `mem_rulesOf_substitute_iff`, `mem_rulesOf_turnAround_iff`: the rules after each of the two
  steps, in terms of the rules before it.
* `meets_substituteCorner`, `meets_removeDirect`: all that a step on a progress can do.
* `meets_substituteCorners`, `meets_treat`: an invariant that is indexed by the corners that are
  still to come is carried over the treatment of one nonterminal.
* `meets_treatAll`: an invariant that is indexed by the nonterminals treated so far holds at the
  end of a run if treating one nonterminal carries it on; `meets_treatAll_of_steps` is the case
  where both steps keep it.
* `tracks_treatAll`: the whole run keeps track of the grammar.
* `run_of_result_eq_ok`, `exists_of_result_eq_ok`: where a successful run ends, and what it commits.
-/

namespace TopDown.Transform.Elimination

variable {a b helper : Symbol} {name : String} {drafts : List Draft} {r : Rule}

/-! ## Rules after a substitution -/

theorem startsWith_iff {d : Draft} :
    startsWith a b d = true ↔ d.lhs = a ∧ ∃ γ, d.rhs = b :: γ := by
  rw [startsWith, Bool.and_eq_true, decide_eq_true_eq, decide_eq_true_eq,
    List.head?_eq_some_iff]

theorem any_startsWith_iff :
    drafts.any (startsWith a b) = true ↔ ∃ γ, ⟨a, b :: γ⟩ ∈ rulesOf drafts := by
  simp only [List.any_eq_true, startsWith_iff, mem_rulesOf_iff]
  constructor
  · rintro ⟨d, hd, rfl, γ, hγ⟩
    exact ⟨γ, d, hd, by rw [← hγ]⟩
  · rintro ⟨γ, d, hd, heq⟩
    exact ⟨d, hd, congrArg Rule.lhs heq, γ, congrArg Rule.rhs heq⟩

theorem mem_substitute_iff {d : Draft} : d ∈ substitute a b drafts ↔
    (d ∈ drafts ∧ ¬(d.lhs = a ∧ ∃ γ, d.rhs = b :: γ)) ∨
      ∃ c ∈ drafts, ∃ γ, c.lhs = a ∧ c.rhs = b :: γ ∧
        ∃ e ∈ drafts, e.lhs = b ∧ d = { label := c.label, lhs := a, rhs := e.rhs ++ γ } := by
  simp only [substitute, List.mem_flatMap]
  constructor
  · rintro ⟨c, hc, hd⟩
    split at hd
    · rename_i hstart
      obtain ⟨hlhs, γ, hγ⟩ := startsWith_iff.mp hstart
      obtain ⟨β, hβ, rfl⟩ := List.mem_map.mp hd
      obtain ⟨e, he, rfl⟩ := List.mem_map.mp hβ
      obtain ⟨he, hb⟩ := List.mem_filter.mp he
      exact Or.inr ⟨c, hc, γ, hlhs, hγ, e, he, by simpa using hb, by rw [hγ]; rfl⟩
    · rename_i hstart
      rw [List.mem_singleton.mp hd]
      exact Or.inl ⟨hc, fun h => hstart (startsWith_iff.mpr h)⟩
  · rintro (⟨hd, hstart⟩ | ⟨c, hc, γ, hlhs, hγ, e, he, hb, rfl⟩)
    · refine ⟨d, hd, ?_⟩
      rw [if_neg fun h => hstart (startsWith_iff.mp h)]
      exact List.mem_singleton.mpr rfl
    · refine ⟨c, hc, ?_⟩
      rw [if_pos (startsWith_iff.mpr ⟨hlhs, γ, hγ⟩)]
      refine List.mem_map.mpr ⟨e.rhs, ?_, by rw [hγ]; rfl⟩
      exact List.mem_map_of_mem (List.mem_filter.mpr ⟨he, by simpa using hb⟩)

theorem mem_rulesOf_substitute_iff : r ∈ rulesOf (substitute a b drafts) ↔
    (r ∈ rulesOf drafts ∧ ¬(r.lhs = a ∧ ∃ γ, r.rhs = b :: γ)) ∨
      ∃ γ β, ⟨a, b :: γ⟩ ∈ rulesOf drafts ∧ ⟨b, β⟩ ∈ rulesOf drafts ∧ r = ⟨a, β ++ γ⟩ := by
  constructor
  · intro h
    obtain ⟨d, hd, rfl⟩ := mem_rulesOf_iff.mp h
    rcases mem_substitute_iff.mp hd with ⟨hd, hne⟩ | ⟨c, hc, γ, rfl, hγ, e, he, rfl, rfl⟩
    · exact Or.inl ⟨mem_rulesOf hd, hne⟩
    · refine Or.inr ⟨γ, e.rhs, ?_, mem_rulesOf he, rfl⟩
      rw [← hγ]
      exact mem_rulesOf hc
  · rintro (⟨h, hne⟩ | ⟨γ, β, hγ, hβ, rfl⟩)
    · obtain ⟨d, hd, rfl⟩ := mem_rulesOf_iff.mp h
      exact mem_rulesOf (mem_substitute_iff.mpr (Or.inl ⟨hd, hne⟩))
    · obtain ⟨c, hc, hcr⟩ := mem_rulesOf_iff.mp hγ
      obtain ⟨e, he, her⟩ := mem_rulesOf_iff.mp hβ
      refine mem_rulesOf_iff.mpr
        ⟨{ label := c.label, lhs := a, rhs := β ++ γ }, mem_substitute_iff.mpr ?_, rfl⟩
      refine Or.inr ⟨c, hc, γ, congrArg Rule.lhs hcr, congrArg Rule.rhs hcr, e, he,
        congrArg Rule.lhs her, ?_⟩
      have hrhs : e.rhs = β := congrArg Rule.rhs her
      rw [hrhs]

/-- A substitution touches rules of `a` only. -/
theorem mem_rulesOf_of_substitute (hr : r ∈ rulesOf (substitute a b drafts)) (ha : r.lhs ≠ a) :
    r ∈ rulesOf drafts := by
  rcases mem_rulesOf_substitute_iff.mp hr with ⟨hr, -⟩ | ⟨_, _, -, -, rfl⟩
  · exact hr
  · exact absurd rfl ha

theorem originsOf_substitute_sublist :
    (originsOf (substitute a b drafts)).Sublist (originsOf drafts) := by
  refine originsOf_flatMap_sublist (fun d => ?_) drafts
  split
  · rw [originsOf_map_of_none fun _ => rfl]
    exact List.nil_sublist _
  · rw [originsOf_singleton]

/-! ## Rules after a removal of direct recursion -/

theorem isRecursive_iff {d : Draft} :
    isRecursive a d = true ↔ d.lhs = a ∧ ∃ γ, d.rhs = a :: γ := by
  rw [isRecursive, Rule.isLeftRecursive, Bool.and_eq_true, decide_eq_true_eq, decide_eq_true_eq,
    List.head?_eq_some_iff]
  constructor
  · rintro ⟨rfl, h⟩
    exact ⟨rfl, h⟩
  · rintro ⟨rfl, h⟩
    exact ⟨rfl, h⟩

theorem mem_recursiveTails_iff {α : List Symbol} :
    α ∈ recursiveTails a drafts ↔ ⟨a, a :: α⟩ ∈ rulesOf drafts := by
  simp only [recursiveTails, List.mem_map, List.mem_filter, isRecursive_iff, mem_rulesOf_iff]
  constructor
  · rintro ⟨d, ⟨hd, hlhs, γ, hγ⟩, rfl⟩
    refine ⟨d, hd, ?_⟩
    show (⟨d.lhs, d.rhs⟩ : Rule) = _
    rw [hlhs, hγ]
    rfl
  · rintro ⟨d, hd, heq⟩
    have hrhs : d.rhs = a :: α := congrArg Rule.rhs heq
    exact ⟨d, ⟨hd, congrArg Rule.lhs heq, α, hrhs⟩, by rw [hrhs]; rfl⟩

theorem mem_rulesOf_seeds_iff : r ∈ rulesOf (seeds a helper drafts) ↔
    (r ∈ rulesOf drafts ∧ r.lhs ≠ a) ∨
      ∃ β, ⟨a, β⟩ ∈ rulesOf drafts ∧ (∀ γ, β ≠ a :: γ) ∧ r = ⟨a, β ++ [helper]⟩ := by
  simp only [mem_rulesOf_iff, seeds, List.mem_map, List.mem_filter]
  constructor
  · rintro ⟨_, ⟨d, ⟨hd, hrec⟩, rfl⟩, rfl⟩
    by_cases hlhs : d.lhs = a
    · refine Or.inr ⟨d.rhs, ⟨d, hd, by rw [← hlhs]⟩, ?_, by rw [if_pos hlhs]⟩
      intro γ hγ
      rw [isRecursive_iff.mpr ⟨hlhs, γ, hγ⟩] at hrec
      cases hrec
    · rw [if_neg hlhs]
      exact Or.inl ⟨⟨d, hd, rfl⟩, hlhs⟩
  · rintro (⟨⟨d, hd, rfl⟩, hlhs⟩ | ⟨β, ⟨d, hd, heq⟩, hβ, rfl⟩)
    · refine ⟨d, ⟨d, ⟨hd, ?_⟩, if_neg hlhs⟩, rfl⟩
      rw [Bool.not_eq_true', Bool.eq_false_iff]
      exact fun h => hlhs (isRecursive_iff.mp h).1
    · have hlhs : d.lhs = a := congrArg Rule.lhs heq
      have hrhs : d.rhs = β := congrArg Rule.rhs heq
      refine ⟨_, ⟨d, ⟨hd, ?_⟩, if_pos hlhs⟩, by rw [hrhs]⟩
      rw [Bool.not_eq_true', Bool.eq_false_iff]
      intro h
      obtain ⟨γ, hγ⟩ := (isRecursive_iff.mp h).2
      exact hβ γ (hrhs.symm.trans hγ)

theorem mem_rulesOf_turnAround_iff : r ∈ rulesOf (turnAround a helper name drafts) ↔
    ((r ∈ rulesOf drafts ∧ r.lhs ≠ a) ∨
      ∃ β, ⟨a, β⟩ ∈ rulesOf drafts ∧ (∀ γ, β ≠ a :: γ) ∧ r = ⟨a, β ++ [helper]⟩) ∨
    (∃ α, ⟨a, a :: α⟩ ∈ rulesOf drafts ∧ r = ⟨helper, α ++ [helper]⟩) ∨ r = ⟨helper, []⟩ := by
  rw [turnAround, rulesOf_append, List.mem_append, mem_rulesOf_seeds_iff,
    mem_rulesOf_helperDrafts_iff]
  refine or_congr_right ?_
  simp only [List.mem_append, List.mem_map, mem_recursiveTails_iff, List.mem_singleton]
  constructor
  · rintro ⟨_, ⟨α, hα, rfl⟩ | rfl, rfl⟩
    · exact Or.inl ⟨α, hα, rfl⟩
    · exact Or.inr rfl
  · rintro (⟨α, hα, rfl⟩ | rfl)
    · exact ⟨_, Or.inl ⟨α, hα, rfl⟩, rfl⟩
    · exact ⟨_, Or.inr rfl, rfl⟩

/-- Turning recursion around touches rules of `a` only, and adds rules of the helper. -/
theorem mem_rulesOf_of_turnAround (hr : r ∈ rulesOf (turnAround a helper name drafts))
    (ha : r.lhs ≠ a) (hhelper : r.lhs ≠ helper) : r ∈ rulesOf drafts := by
  rcases mem_rulesOf_turnAround_iff.mp hr with
    (⟨hr, -⟩ | ⟨_, -, -, rfl⟩) | ⟨_, -, rfl⟩ | rfl
  · exact hr
  · exact absurd rfl ha
  · exact absurd rfl hhelper
  · exact absurd rfl hhelper

theorem rightRecursive_turnAround (hne : a ≠ helper)
    (hfresh : ∀ r ∈ rulesOf drafts, r.lhs ≠ helper ∧ helper ∉ r.rhs) :
    ∀ r ∈ rulesOf (turnAround a helper name drafts), r.lhs = helper →
      r.rhs = [] ∨ ∃ α, r.rhs = α ++ [helper] := by
  intro r hr hlhs
  rcases mem_rulesOf_turnAround_iff.mp hr with
    (⟨hr, -⟩ | ⟨_, -, -, rfl⟩) | ⟨α, -, rfl⟩ | rfl
  · exact absurd hlhs (hfresh r hr).1
  · exact absurd hlhs hne
  · exact Or.inr ⟨α, rfl⟩
  · exact Or.inl rfl

theorem originsOf_turnAround_sublist :
    (originsOf (turnAround a helper name drafts)).Sublist (originsOf drafts) := by
  rw [turnAround, originsOf_append, originsOf_helperDrafts, List.append_nil]
  have hfilter : (originsOf (drafts.filter fun d => !isRecursive a d)).Sublist
      (originsOf drafts) := List.filter_sublist.filterMap _
  refine List.Sublist.trans ?_ hfilter
  rw [seeds, List.map_eq_flatMap]
  refine originsOf_flatMap_sublist (fun d => ?_) _
  rw [originsOf_singleton]
  split
  · exact List.nil_sublist _
  · exact List.Sublist.refl _

/-! ## What a step on a progress can do -/

variable {options : Options} {corners : SymbolRelation} {p : Progress} {I : Progress → Prop}
  {E : Failure → Prop}

/-- A step submits the same drafts whatever the limit is. -/
theorem exists_substituteCorner_eq (options : Options)
    (h : (corners.holds b a && p.drafts.any (startsWith a b)) = true) :
    ∃ journal, ∀ limit, substituteCorner { options with limit } corners a p b =
      { p with journal }.submit { options with limit } a (substitute a b p.drafts) := by
  refine ⟨(p.noteAll (substitutionEvents p a b)).journal, fun limit => ?_⟩
  rw [substituteCorner, if_pos h, Progress.noteAll_eq]

theorem exists_removeDirect_eq (options : Options) (hne : recursiveTails a p.drafts ≠ [])
    (hcycle : (recursiveTails a p.drafts).any (·.isEmpty) = false) :
    let issued := p.introduce options a
    ∃ journal, ∀ limit, removeDirect { options with limit } a p =
      { issued.2 with journal }.submit { options with limit } a
        (turnAround a issued.1 (issued.2.name issued.1) p.drafts) := by
  intro issued
  let drafts := turnAround a issued.1 (issued.2.name issued.1) p.drafts
  let warned := if drafts.any (·.lhs = a) then issued.2 else
    issued.2.note (.exhausted (issued.2.name a))
  let noted := warned.note (.recursionMoved (warned.name issued.1)
    (recursiveTails a p.drafts).length (warned.name a))
  have hnoted : noted = { issued.2 with journal := noted.journal } := by
    unfold noted warned
    split <;> rfl
  refine ⟨noted.journal, fun limit => ?_⟩
  rw [removeDirect, ← hnoted]
  simp only [List.isEmpty_iff, hne, hcycle, if_false, Bool.false_eq_true]
  rfl

/-- A substitution is left out, or it replaces the drafts; then the limit may be passed. -/
theorem meets_substituteCorner
    (skip : (corners.holds b a = true → ∀ γ, ⟨a, b :: γ⟩ ∉ rulesOf p.drafts) → I p)
    (replace : corners.holds b a = true → (∃ γ, ⟨a, b :: γ⟩ ∈ rulesOf p.drafts) → ∀ journal,
      let q := { p with drafts := substitute a b p.drafts, changed := true, journal }
      I q ∧ E ⟨q, .tooManyProductions options.limit (q.name a)⟩) :
    Meets I E (substituteCorner options corners a p b) := by
  by_cases h : (corners.holds b a && p.drafts.any (startsWith a b)) = true
  · obtain ⟨journal, heq⟩ := exists_substituteCorner_eq options h
    rw [Bool.and_eq_true, any_startsWith_iff] at h
    obtain ⟨hI, hE⟩ := replace h.1 h.2 journal
    rw [heq options.limit]
    exact Meets.of_submit hI hE
  · rw [substituteCorner, if_neg h]
    rw [Bool.and_eq_true, any_startsWith_iff, not_and] at h
    exact skip fun hc γ hγ => h hc ⟨γ, hγ⟩

/-- Without direct recursion nothing happens. A rule `a → a` ends the run; otherwise a helper is
issued and the drafts are replaced; then the limit may be passed. -/
theorem meets_removeDirect (skip : (∀ γ, ⟨a, a :: γ⟩ ∉ rulesOf p.drafts) → I p)
    (cycle : ⟨a, [a]⟩ ∈ rulesOf p.drafts → E ⟨p, .cycle (p.name a)⟩)
    (replace : (∃ γ, ⟨a, a :: γ⟩ ∈ rulesOf p.drafts) → ⟨a, [a]⟩ ∉ rulesOf p.drafts → ∀ journal,
      let issued := p.introduce options a
      let q := { issued.2 with
        drafts := turnAround a issued.1 (issued.2.name issued.1) p.drafts
        changed := true
        journal }
      I q ∧ E ⟨q, .tooManyProductions options.limit (q.name a)⟩) :
    Meets I E (removeDirect options a p) := by
  by_cases hnil : recursiveTails a p.drafts = []
  · rw [removeDirect, hnil]
    refine skip fun γ hγ => ?_
    rw [← mem_recursiveTails_iff, hnil] at hγ
    cases hγ
  · obtain ⟨α, hα⟩ := List.exists_mem_of_ne_nil _ hnil
    cases hany : (recursiveTails a p.drafts).any (·.isEmpty) with
    | true =>
        obtain ⟨β, hβ, hempty⟩ := List.any_eq_true.mp hany
        rw [List.isEmpty_iff.mp hempty, mem_recursiveTails_iff] at hβ
        simp only [removeDirect, List.isEmpty_iff, hnil, hany, if_false, if_true]
        exact cycle hβ
    | false =>
        have hself : ⟨a, [a]⟩ ∉ rulesOf p.drafts := by
          rw [← mem_recursiveTails_iff]
          exact fun hmem => List.any_eq_false.mp hany [] hmem rfl
        obtain ⟨journal, heq⟩ := exists_removeDirect_eq options hnil hany
        obtain ⟨hI, hE⟩ := replace ⟨α, mem_recursiveTails_iff.mp hα⟩ hself journal
        rw [heq options.limit]
        exact Meets.of_submit hI hE

/-! ## The order of the nonterminals -/

section Order

variable {g : Grammar} {earlier later : List Symbol} {s : Symbol}
  (horder : g.symbols.nonterminals = earlier ++ a :: later)
include horder

theorem kind?_of_mem_order (hs : s ∈ earlier ++ a :: later) :
    g.symbols.kind? s = some .nonterminal := by
  rw [← horder] at hs
  exact SymbolTable.mem_nonterminals_iff.mp hs

theorem pairwise_order : (earlier ++ a :: later).Pairwise (·.index < ·.index) := by
  rw [← horder]
  exact g.symbols.pairwise_nonterminals

theorem index_lt_of_mem_earlier (hs : s ∈ earlier) : s.index < a.index :=
  (List.pairwise_append.mp (pairwise_order horder)).2.2 s hs a List.mem_cons_self

theorem not_mem_earlier : a ∉ earlier := fun hmem =>
  Nat.lt_irrefl _ (index_lt_of_mem_earlier horder hmem)

end Order

/-! ## The run -/

/-- The substitutions for one nonterminal carry an invariant that is indexed by the corners that
are still to come; these are always a suffix of the earlier nonterminals. -/
theorem meets_substituteCorners {J : List Symbol → Progress → Prop}
    {earlier done rest : List Symbol}
    (substitution : ∀ c rest p, c :: rest <:+ earlier → J (c :: rest) p →
      Meets (J rest) E (substituteCorner options corners a p c))
    (hsuffix : done ++ rest <:+ earlier) (hp : J (done ++ rest) p) :
    Meets (J rest) E (done.foldlM (substituteCorner options corners a) p) := by
  induction done generalizing p with
  | nil => exact hp
  | cons c done ih =>
      rw [List.foldlM_cons]
      have hdone : done ++ rest <:+ earlier := (List.suffix_cons c _).trans hsuffix
      exact (substitution c (done ++ rest) p hsuffix hp).bind fun q hq => ih hdone hq

/-- Treating one nonterminal: an invariant that is indexed by the corners that are still to come
is carried to the end of the substitutions, and from there over the direct recursion. -/
theorem meets_treat {J : List Symbol → Progress → Prop} {earlier : List Symbol}
    (hp : J earlier p)
    (substitution : ∀ c rest p, c :: rest <:+ earlier → J (c :: rest) p →
      Meets (J rest) E (substituteCorner options corners a p c))
    (direct : ∀ p, J [] p → Meets I E (removeDirect options a p)) :
    Meets I E (treat options corners earlier a p) := by
  have hfold : Meets (J []) E (earlier.foldlM (substituteCorner options corners a) p) :=
    meets_substituteCorners substitution (by simp) (by rwa [List.append_nil])
  exact hfold.bind direct

/-- A run over all nonterminals of an order carries an invariant that is indexed by the
nonterminals treated so far. -/
theorem meets_treatAll {order : List Symbol} {K : List Symbol → Progress → Prop}
    (step : ∀ earlier a rest p, order = earlier ++ a :: rest → K earlier p →
      Meets (K (earlier ++ [a])) E (treat options corners earlier a p))
    {earlier rest : List Symbol} (horder : order = earlier ++ rest) (hp : K earlier p) :
    Meets (K order) E (treatAll options corners earlier p rest) := by
  induction rest generalizing earlier p with
  | nil =>
      rw [List.append_nil] at horder
      rw [horder]
      exact hp
  | cons a rest ih =>
      refine Meets.bind (step earlier a rest p horder hp) fun q hq => ?_
      exact ih (by rw [horder, List.append_assoc]; rfl) hq

/-- What both steps keep is kept by a run, wherever it ends. -/
theorem meets_treatAll_of_steps {order : List Symbol}
    (substituted : ∀ earlier a later c p, order = earlier ++ a :: later → c ∈ earlier → I p →
      corners.holds c a = true → (∃ γ, ⟨a, c :: γ⟩ ∈ rulesOf p.drafts) → ∀ journal,
      I { p with drafts := substitute a c p.drafts, changed := true, journal })
    (turned : ∀ earlier a later p, order = earlier ++ a :: later → I p →
      (∃ γ, ⟨a, a :: γ⟩ ∈ rulesOf p.drafts) → ⟨a, [a]⟩ ∉ rulesOf p.drafts → ∀ journal,
      let issued := p.introduce options a
      I { issued.2 with
        drafts := turnAround a issued.1 (issued.2.name issued.1) p.drafts
        changed := true
        journal })
    {earlier rest : List Symbol} (horder : order = earlier ++ rest) (hp : I p) :
    Meets I (I ·.progress) (treatAll options corners earlier p rest) := by
  refine meets_treatAll (K := fun _ q => I q) (fun earlier a later p horder hp => ?_) horder hp
  refine meets_treat (J := fun _ q => I q) hp (fun c rest q hsuffix hq => ?_) fun q hq => ?_
  · have hc : c ∈ earlier := hsuffix.subset List.mem_cons_self
    refine meets_substituteCorner (fun _ => hq) fun hholds hrule journal => ?_
    have hnext := substituted earlier a later c q horder hc hq hholds hrule journal
    exact ⟨hnext, hnext⟩
  · refine meets_removeDirect (fun _ => hq) (fun _ => hq) fun hrule hself journal => ?_
    have hnext := turned earlier a later q horder hq hrule hself journal
    exact ⟨hnext, hnext⟩

/-! ## The run keeps track of the grammar -/

variable {g : Grammar}

theorem tracks_substitute (h : p.Tracks g) (journal : Array Event) :
    { p with drafts := substitute a b p.drafts, changed := true, journal }.Tracks g := by
  refine ((h.journal journal).replace ?_ originsOf_substitute_sublist)
  have hadmits := forall_mem_rulesOf_iff.mpr h.admits
  refine forall_mem_rulesOf_iff.mp fun r hr => ?_
  rcases mem_rulesOf_substitute_iff.mp hr with ⟨hr, -⟩ | ⟨γ, β, hγ, hβ, rfl⟩
  · exact hadmits r hr
  · obtain ⟨hlhs, htail⟩ := hadmits _ hγ
    obtain ⟨-, hbody⟩ := hadmits _ hβ
    refine ⟨hlhs, fun s hs => ?_⟩
    rcases List.mem_append.mp hs with hs | hs
    · exact hbody s hs
    · exact htail s (List.mem_cons_of_mem _ hs)

theorem tracks_turnAround (h : p.Tracks g) (journal : Array Event) :
    let issued := p.introduce options a
    { issued.2 with
      drafts := turnAround a issued.1 (issued.2.name issued.1) p.drafts
      changed := true
      journal }.Tracks g := by
  intro issued
  have hadmits : ∀ r ∈ rulesOf p.drafts, issued.2.grammar.Admits r := fun r hr =>
    Progress.Tracks.admits_introduce (forall_mem_rulesOf_iff.mpr h.admits r hr)
  have hhelper : issued.2.grammar.symbols.kind? issued.1 = some .nonterminal :=
    Progress.kind?_introduce ..
  have hc := SymbolTable.contains_of_kind? hhelper
  have hbehind : ∀ α : List Symbol, (∀ s ∈ α, issued.2.grammar.symbols.contains s = true) →
      ∀ s ∈ α ++ [issued.1], issued.2.grammar.symbols.contains s = true := by
    intro α hα s hs
    rcases List.mem_append.mp hs with hs | hs
    · exact hα s hs
    · rw [List.mem_singleton.mp hs]
      exact hc
  refine ((h.introduce ?_ originsOf_turnAround_sublist).journal journal)
  refine forall_mem_rulesOf_iff.mp fun r hr => ?_
  rcases mem_rulesOf_turnAround_iff.mp hr with
    (⟨hr, -⟩ | ⟨β, hβ, -, rfl⟩) | ⟨α, hα, rfl⟩ | rfl
  · exact hadmits r hr
  · exact ⟨(hadmits _ hβ).1, hbehind β (hadmits _ hβ).2⟩
  · exact ⟨hhelper, hbehind α fun s hs => (hadmits _ hα).2 s (List.mem_cons_of_mem _ hs)⟩
  · exact ⟨hhelper, by simp⟩

variable (options corners) in
theorem tracks_treatAll (h : p.Tracks g) (earlier rest : List Symbol) :
    Meets (·.Tracks g) (·.progress.Tracks g) (treatAll options corners earlier p rest) :=
  meets_treatAll_of_steps (fun _ _ _ _ _ _ _ hp _ _ => tracks_substitute hp)
    (fun _ _ _ _ _ hp _ _ => tracks_turnAround hp) rfl h

/-! ## The outcome -/

/-- The end of a run: a commit, or left recursion that remains. -/
theorem conclude_cases (p : Progress) :
    (∃ journal, conclude p = { p with journal }.commit) ∨
      ∃ journal error, remainder? p.grammar p.drafts = some error ∧
        conclude p = Failure.abort ⟨{ p with journal }, error⟩ := by
  unfold conclude
  split
  · dsimp only
    split
    · rename_i error herror
      exact Or.inr ⟨_, error, herror, rfl⟩
    · exact Or.inl ⟨_, rfl⟩
  · exact Or.inl ⟨p.journal, rfl⟩

/-- If nothing stands against it, an elimination is its run. -/
theorem eliminateLeftRecursion_of_clear (hcycle : cycle? g = none)
    (hhidden : hiddenRecursion? g = none) :
    g.eliminateLeftRecursion options = run g options #[.ofClosure g.system] := by
  rw [Grammar.eliminateLeftRecursion, hcycle, hhidden]

/-- Nothing stood against an elimination that succeeds, and it ends where its run arrived. -/
theorem run_of_result_eq_ok {helpers : List Symbol}
    (hok : (g.eliminateLeftRecursion options).result = .ok helpers) :
    cycle? g = none ∧ hiddenRecursion? g = none ∧
      ∃ p, treatAll options (g.system.vanishingCorners g.system.nullable) []
          (.start g (#[.ofClosure g.system] ++
            #[.ofClosure g.system, .eliminating g.symbols.nonterminals.length]))
          g.symbols.nonterminals = .ok p ∧
        g.eliminateLeftRecursion options = conclude p := by
  unfold Grammar.eliminateLeftRecursion at hok ⊢
  cases hcycle : cycle? g with
  | some error =>
      rw [hcycle] at hok
      cases hok
  | none =>
      cases hhidden : hiddenRecursion? g with
      | some error =>
          rw [hcycle, hhidden] at hok
          cases hok
      | none =>
          rw [hcycle, hhidden] at hok
          dsimp only [run] at hok ⊢
          split at hok
          · cases hok
          · rename_i p hp
            exact ⟨rfl, rfl, p, hp, rfl⟩

/-- An elimination that succeeds has treated all nonterminals and commits the progress it arrived
at. -/
theorem exists_of_result_eq_ok {helpers : List Symbol}
    (hok : (g.eliminateLeftRecursion options).result = .ok helpers) :
    ∃ journal p, treatAll options (g.system.vanishingCorners g.system.nullable) []
        (.start g journal) g.symbols.nonterminals = .ok p ∧
      ∃ journal', g.eliminateLeftRecursion options = { p with journal := journal' }.commit := by
  obtain ⟨-, -, p, hp, heq⟩ := run_of_result_eq_ok hok
  refine ⟨_, p, hp, ?_⟩
  rcases conclude_cases p with ⟨journal, hcommit⟩ | ⟨journal, error, -, habort⟩
  · exact ⟨journal, heq.trans hcommit⟩
  · rw [heq, habort] at hok
    cases hok

end TopDown.Transform.Elimination
