import TopDown.Proofs.Elimination.Growth

/-!
# Nonterminals that lose all their rules

A nonterminal whose rules are all left-recursive has none left once they are turned around. An
elimination that comes to this says so, and it comes to this only where nothing is substituted any
more: for the last nonterminal of a cycle of first symbols.

* `exhaustedNames`: the nonterminals that a journal reports; `names_substituteCorner`,
  `names_removeDirect` and `exhaustedNames_conclude` say what each step adds to them.
* `Told` is the invariant of a run: the report so far is that of the treated nonterminals that
  lost all their rules. `Told.congr` and `Told.treated` carry it on.
* `told_substituteCorner`, `told_removeDirect`, `told_treatAll`: a run keeps it, together with
  `Between` and `Within`.
* `Visits` names the states of a run between its steps; `exhaustion_exact` says that no step makes
  the drafts fewer, and that the report is exact at the end.
-/

namespace TopDown.Transform.Elimination

open Relation

variable {g : Grammar} {options : Options} {corners : SymbolRelation} {p q : Progress}
  {a b c h t : Symbol} {name : String} {drafts : List Draft} {journal : Array Event}
  {event : Event} {earlier later done rest : List Symbol}

/-! ## What a journal reports -/

/-- The nonterminal that an event reports as having no productions left. -/
def exhausted? : Event → Option String
  | .exhausted name => some name
  | _ => none

def exhaustedNames (journal : Array Event) : List String :=
  journal.toList.filterMap exhausted?

theorem exhaustedNames_push :
    exhaustedNames (journal.push event) = exhaustedNames journal ++ (exhausted? event).toList := by
  rw [exhaustedNames, Array.toList_push, List.filterMap_append]
  cases h : exhausted? event <;> simp [exhaustedNames, h]

theorem exhaustedNames_note (hevent : exhausted? event = none) :
    exhaustedNames (p.note event).journal = exhaustedNames p.journal := by
  rw [Progress.note, exhaustedNames_push, hevent, Option.toList_none, List.append_nil]

theorem exhaustedNames_noteAll {events : List Event}
    (h : ∀ event ∈ events, exhausted? event = none) :
    exhaustedNames (p.noteAll events).journal = exhaustedNames p.journal := by
  unfold Progress.noteAll
  induction events generalizing p with
  | nil => rfl
  | cons event events ih =>
      rw [List.foldl_cons, ih fun e he => h e (List.mem_cons_of_mem _ he)]
      exact exhaustedNames_note (h event List.mem_cons_self)

/-! ### The end of a run -/

theorem exhaustedNames_abort (f : Failure) :
    exhaustedNames f.abort.journal = exhaustedNames f.progress.journal := by
  have hwithdraw : ∀ (p : Progress) (helper : Symbol),
      exhaustedNames (p.withdraw helper).journal = exhaustedNames p.journal := by
    intro p helper
    unfold Progress.withdraw
    split
    · rfl
    · rfl
    · exact exhaustedNames_note rfl
  have hfold : ∀ (helpers : List Symbol) (p : Progress),
      exhaustedNames (helpers.foldl Progress.withdraw p).journal = exhaustedNames p.journal := by
    intro helpers
    induction helpers with
    | nil => exact fun _ => rfl
    | cons helper helpers ih => exact fun p => (ih _).trans (hwithdraw p helper)
  exact (hfold _ _).trans (exhaustedNames_note rfl)

theorem exhaustedNames_commit (p : Progress) :
    exhaustedNames p.commit.journal = exhaustedNames p.journal := by
  unfold Progress.commit
  split
  · split
    · exact exhaustedNames_abort _
    · refine exhaustedNames_noteAll ?_
      simp [Event.ofReplacement, exhausted?]
  · rfl

theorem exhaustedNames_conclude (p : Progress) :
    exhaustedNames (conclude p).journal = exhaustedNames p.journal := by
  have hclosure : exhaustedNames (p.note (.ofClosure (p.grammar.draftSystem p.drafts))).journal =
      exhaustedNames p.journal := exhaustedNames_note rfl
  unfold conclude
  split
  · dsimp only
    split
    · exact (exhaustedNames_abort _).trans hclosure
    · exact (exhaustedNames_commit _).trans hclosure
  · exact exhaustedNames_commit p

/-! ## Who has rules -/

def hasRule (rules : List Rule) (a : Symbol) : Bool := rules.any (·.lhs = a)

/-- Whether a symbol that had a rule has none any more. -/
def loses (before after : List Rule) (a : Symbol) : Bool := hasRule before a && !hasRule after a

theorem hasRule_iff {rules : List Rule} : hasRule rules a = true ↔ ∃ r ∈ rules, r.lhs = a := by
  simp [hasRule]

theorem hasRule_rulesOf : hasRule (rulesOf drafts) a = drafts.any (·.lhs = a) := by
  rw [hasRule, rulesOf, List.any_map]
  rfl

theorem loses_self {rules : List Rule} : loses rules rules a = false := by simp [loses]

/-- A substitution that has something to put in takes no symbol its last rule. -/
theorem hasRule_substitute (hb : ∃ r ∈ rulesOf drafts, r.lhs = b) (t : Symbol) :
    hasRule (rulesOf (substitute a b drafts)) t = hasRule (rulesOf drafts) t := by
  rw [Bool.eq_iff_iff, hasRule_iff, hasRule_iff]
  constructor
  · rintro ⟨r, hr, rfl⟩
    rcases mem_rulesOf_substitute_iff.mp hr with ⟨hr, -⟩ | ⟨γ, β, hγ, -, rfl⟩
    · exact ⟨r, hr, rfl⟩
    · exact ⟨_, hγ, rfl⟩
  · rintro ⟨r, hr, rfl⟩
    obtain ⟨⟨b, β⟩, hβ, rfl⟩ := hb
    by_cases hstart : r.lhs = a ∧ ∃ γ, r.rhs = b :: γ
    · obtain ⟨rfl, γ, hγ⟩ := hstart
      refine ⟨⟨r.lhs, β ++ γ⟩, mem_rulesOf_substitute_iff.mpr (Or.inr ⟨γ, β, ?_, hβ, rfl⟩), rfl⟩
      rw [← hγ]
      exact hr
    · exact ⟨r, mem_rulesOf_substitute_iff.mpr (Or.inl ⟨hr, hstart⟩), rfl⟩

/-- Turning recursion around concerns no other symbol. -/
theorem hasRule_turnAround (ha : t ≠ a) (hh : t ≠ h) :
    hasRule (rulesOf (turnAround a h name drafts)) t = hasRule (rulesOf drafts) t := by
  rw [Bool.eq_iff_iff, hasRule_iff, hasRule_iff]
  constructor
  · rintro ⟨r, hr, rfl⟩
    exact ⟨r, mem_rulesOf_of_turnAround hr ha hh, rfl⟩
  · rintro ⟨r, hr, rfl⟩
    exact ⟨r, mem_rulesOf_turnAround_iff.mpr (Or.inl (Or.inl ⟨hr, ha⟩)), rfl⟩

/-! ## What a step reports -/

/-- A substitution reports no nonterminal. -/
theorem names_substituteCorner :
    Meets (fun q => exhaustedNames q.journal = exhaustedNames p.journal) (fun _ => True)
      (substituteCorner options corners a p b) := by
  have hevents : exhaustedNames (p.noteAll (substitutionEvents p a b)).journal =
      exhaustedNames p.journal := by
    refine exhaustedNames_noteAll fun event hevent => ?_
    obtain ⟨d, -, rfl⟩ := List.mem_map.mp hevent
    rfl
  unfold substituteCorner
  split
  · exact Meets.of_submit hevents trivial
  · rfl

variable (options) in
/-- The removal of direct recursion reports the nonterminal exactly if it loses its last rule. -/
theorem names_removeDirect (ha : p.grammar.symbols.contains a = true) :
    Meets (fun q => exhaustedNames q.journal = exhaustedNames p.journal ++
        if loses (rulesOf p.drafts) (rulesOf q.drafts) a = true then [p.name a] else [])
      (fun _ => True) (removeDirect options a p) := by
  unfold removeDirect
  dsimp only
  split
  · show exhaustedNames p.journal = _
    rw [loses_self, if_neg Bool.false_ne_true, List.append_nil]
  · rename_i htails
    split
    · trivial
    · obtain ⟨α, hα⟩ := List.exists_mem_of_ne_nil _ (mt List.isEmpty_iff.mpr htails)
      have hbefore : hasRule (rulesOf p.drafts) a = true :=
        hasRule_iff.mpr ⟨_, mem_recursiveTails_iff.mp hα, rfl⟩
      have hname : (p.introduce options a).2.name a = p.name a := by
        rw [Progress.name, Progress.name, Grammar.displayName, Grammar.displayName,
          Progress.name?_introduce_of_ne (Progress.ne_introduce ha)]
      refine Meets.of_submit ?_ trivial
      rw [loses, hbefore, hasRule_rulesOf, Bool.true_and]
      rw [exhaustedNames_note rfl]
      split
      · rename_i hany
        rw [hany, Bool.not_true, if_neg Bool.false_ne_true, List.append_nil]
        rfl
      · rename_i hany
        rw [Bool.not_eq_true] at hany
        rw [hany, Bool.not_false, if_pos rfl, Progress.note, exhaustedNames_push, hname]
        rfl

/-! ## The report so far -/

/-- A symbol is left-recursive, and of those that lead to it and that it leads to by corners, it
was created last. -/
structure EndsCycle (rules : List Rule) (a : Symbol) : Prop where
  recursive : TransGen (Corner rules) a a
  last : ∀ b, TransGen (Corner rules) a b → TransGen (Corner rules) b a → b.index ≤ a.index

/-- What is reported after the nonterminals of a list: those of them that lost all their rules,
each of which ends a cycle. The others have rules if they had some. -/
structure Told (g : Grammar) (earlier : List Symbol) (p : Progress) : Prop where
  untreated : ∀ a, g.symbols.contains a = true → a ∉ earlier →
    hasRule (rulesOf p.drafts) a = hasRule g.system.rules a
  names : exhaustedNames p.journal =
    (earlier.filter (loses g.system.rules (rulesOf p.drafts))).map g.displayName
  last : ∀ a ∈ earlier, loses g.system.rules (rulesOf p.drafts) a = true →
    EndsCycle g.system.rules a

namespace Told

theorem start (hjournal : exhaustedNames journal = []) : Told g [] (.start g journal) := by
  refine ⟨fun a _ _ => ?_, hjournal, by simp⟩
  rw [rules_eq_rulesOf]
  rfl

/-- A step that takes no symbol its last rule and reports nothing. -/
theorem congr (hp : Told g earlier p)
    (hrules : ∀ a, hasRule (rulesOf q.drafts) a = hasRule (rulesOf p.drafts) a)
    (hnames : exhaustedNames q.journal = exhaustedNames p.journal) : Told g earlier q := by
  have hloses : loses g.system.rules (rulesOf q.drafts) =
      loses g.system.rules (rulesOf p.drafts) := by
    funext a
    rw [loses, loses, hrules]
  refine ⟨fun a ha hnot => (hrules a).trans (hp.untreated a ha hnot), ?_, ?_⟩
  · rw [hnames, hp.names, hloses]
  · rw [hloses]
    exact hp.last

/-- The end of the treatment of `a`, which may have lost its last rule and is reported then. -/
theorem treated (hp : Told g earlier p) (horder : g.symbols.nonterminals = earlier ++ a :: later)
    (hother : ∀ t, g.symbols.contains t = true → t ≠ a →
      hasRule (rulesOf q.drafts) t = hasRule (rulesOf p.drafts) t)
    (hnames : exhaustedNames q.journal = exhaustedNames p.journal ++
      if loses (rulesOf p.drafts) (rulesOf q.drafts) a = true then [g.displayName a] else [])
    (hlast : loses (rulesOf p.drafts) (rulesOf q.drafts) a = true →
      EndsCycle g.system.rules a) : Told g (earlier ++ [a]) q := by
  have hcontains : ∀ t ∈ earlier ++ a :: later, g.symbols.contains t = true := fun t ht =>
    SymbolTable.contains_of_kind? (kind?_of_mem_order horder ht)
  have hself : loses g.system.rules (rulesOf q.drafts) a =
      loses (rulesOf p.drafts) (rulesOf q.drafts) a := by
    rw [loses, loses, hp.untreated a (hcontains a (by simp)) (not_mem_earlier horder)]
  have hearlier : ∀ t ∈ earlier, loses g.system.rules (rulesOf q.drafts) t =
      loses g.system.rules (rulesOf p.drafts) t := by
    intro t ht
    have hne : t ≠ a := by
      rintro rfl
      exact not_mem_earlier horder ht
    rw [loses, loses, hother t (hcontains t (List.mem_append_left _ ht)) hne]
  refine ⟨fun t ht hnot => ?_, ?_, fun t ht hloses => ?_⟩
  · rw [List.mem_append, List.mem_singleton, not_or] at hnot
    exact (hother t ht hnot.2).trans (hp.untreated t ht hnot.1)
  · rw [hnames, hp.names, List.filter_append, List.map_append, List.filter_congr hearlier, ← hself]
    refine congrArg (_ ++ ·) ?_
    cases hcase : loses g.system.rules (rulesOf q.drafts) a <;> simp [hcase]
  · rcases List.mem_append.mp ht with ht | ht
    · exact hp.last t ht (hearlier t ht ▸ hloses)
    · rw [List.mem_singleton.mp ht] at hloses ⊢
      exact hlast (hself ▸ hloses)

end Told

/-! ## The run -/

/-- A nonterminal that loses its last rule as it is turned around ends a cycle: a later one on a
cycle with it would be linked to it by a rule that is not turned around. -/
theorem Within.endsCycle_of_loses (hp : Within g options earlier [] a p)
    (horder : g.symbols.nonterminals = earlier ++ a :: later)
    (hrec : ∃ γ, ⟨a, a :: γ⟩ ∈ rulesOf p.drafts)
    (hloses : loses (rulesOf p.drafts) (rulesOf (Elimination.turnAround a h name p.drafts)) a =
      true) : EndsCycle g.system.rules a := by
  obtain ⟨served, hp, hl, -⟩ := hp
  simp only [loses, Bool.and_eq_true, Bool.not_eq_true', Bool.eq_false_iff, Ne, hasRule_iff]
    at hloses
  have hbase := hp.baseOf_of_mem_order horder (s := a) (by simp)
  obtain ⟨γ, hγ⟩ := hrec
  refine ⟨(hp.sound.original _ hγ hbase).corner (α := []) (by simp) hbase, fun b hto hback => ?_⟩
  by_contra hlater
  refine hloses.2 (hl.turnAround.exists_rule hto hback fun hmem => hlater ?_)
  rcases List.mem_append.mp hmem with hmem | hmem
  · exact Nat.le_of_lt (index_lt_of_mem_earlier horder hmem)
  · exact Nat.le_of_eq (congrArg Symbol.index (List.mem_singleton.mp hmem))

theorem told_removeDirect (horder : g.symbols.nonterminals = earlier ++ a :: later)
    (hp : Within g options earlier [] a p) (htold : Told g earlier p) :
    Meets (fun q => Between g options (earlier ++ [a]) q ∧ Told g (earlier ++ [a]) q)
      (fun _ => True) (removeDirect options a p) := by
  have ha : g.symbols.contains a = true :=
    SymbolTable.contains_of_kind? (kind?_of_mem_order horder (by simp))
  have hstep : Meets (fun q =>
      (∀ t, g.symbols.contains t = true → t ≠ a →
        hasRule (rulesOf q.drafts) t = hasRule (rulesOf p.drafts) t) ∧
      (loses (rulesOf p.drafts) (rulesOf q.drafts) a = true → EndsCycle g.system.rules a) ∧
      Between g options (earlier ++ [a]) q) (fun _ => True) (removeDirect options a p) := by
    refine meets_removeDirect (fun hnone => ?_) (fun _ => trivial)
      fun hrec _ journal => ⟨?_, trivial⟩
    · refine ⟨fun _ _ _ => rfl, fun hloses => ?_, hp.keep hnone⟩
      rw [loses_self] at hloses
      cases hloses
    · exact ⟨fun t ht hne => hasRule_turnAround hne (hp.tracks.ne_introduce ht),
        hp.endsCycle_of_loses horder hrec, hp.turnAround horder hrec journal⟩
  have hnames := names_removeDirect options (hp.tracks.contains_iff.mpr (Or.inl ha))
  refine (hstep.and hnames).mono ?_ fun _ _ => trivial
  rintro q ⟨⟨hother, hlast, hq⟩, hnames⟩
  rw [hp.tracks.name_eq ha] at hnames
  exact ⟨hq, htold.treated horder hother hnames hlast⟩

section Run

variable (hg : g.WellFormed)
  (hcorners : ∀ s t, corners.holds s t = true ↔ TransGen (Corner g.system.rules) s t)
include hg hcorners

theorem told_substituteCorner (horder : g.symbols.nonterminals = earlier ++ a :: later)
    (hsuffix : c :: rest <:+ earlier) (hp : Within g options earlier (c :: rest) a p)
    (htold : Told g earlier p) :
    Meets (fun q => Within g options earlier rest a q ∧ Told g earlier q) (fun _ => True)
      (substituteCorner options corners a p c) := by
  have hc : c ∈ earlier := hsuffix.subset List.mem_cons_self
  have hstep : Meets (fun q => (∀ t, hasRule (rulesOf q.drafts) t = hasRule (rulesOf p.drafts) t) ∧
      Within g options earlier rest a q) (fun _ => True)
      (substituteCorner options corners a p c) := by
    refine meets_substituteCorner (fun hskip => ?_) fun hholds hrule journal => ⟨?_, trivial⟩
    · exact ⟨fun _ => rfl, hp.skip horder hcorners hc hskip⟩
    · have hreach := (hcorners c a).mp hholds
      exact ⟨hasRule_substitute (hp.exists_rule horder hc hreach hrule),
        hp.substitute horder hg hsuffix hreach journal⟩
  refine (hstep.and names_substituteCorner).mono ?_ fun _ _ => trivial
  rintro q ⟨⟨hrules, hq⟩, hnames⟩
  exact ⟨hq, htold.congr hrules hnames⟩

/-- The run over the nonterminals of a beginning. -/
theorem told_treatAll (hp : Between g options [] p) (htold : Told g [] p)
    (horder : g.symbols.nonterminals = earlier ++ later) :
    Meets (fun q => Between g options earlier q ∧ Told g earlier q) (fun _ => True)
      (treatAll options corners [] p earlier) := by
  refine meets_treatAll (K := fun first q => Between g options first q ∧ Told g first q) ?_
    (List.nil_append _).symm ⟨hp, htold⟩
  rintro first a rest p hfirst ⟨hp, htold⟩
  have hsplit : g.symbols.nonterminals = first ++ a :: (rest ++ later) := by
    rw [horder, hfirst, List.append_assoc]
    rfl
  exact meets_treat (J := fun rest q => Within g options first rest a q ∧ Told g first q)
    ⟨hp.within hsplit hg, htold⟩
    (fun _ _ _ hsuffix h => told_substituteCorner hg hcorners hsplit hsuffix h.1 h.2)
    fun _ h => told_removeDirect hsplit h.1 h.2

end Run

/-! ## The states of a run -/

def runCorners (g : Grammar) : SymbolRelation := g.system.vanishingCorners g.system.nullable

def outset (g : Grammar) : Progress :=
  .start g (#[.ofClosure g.system] ++
    #[.ofClosure g.system, .eliminating g.symbols.nonterminals.length])

/-- An elimination comes to `p` on its way: nothing stood against it, it has treated the
nonterminals before `a`, which are `done ++ rest`, and has substituted those of `done` into the
drafts of `a`. -/
structure Visits (g : Grammar) (options : Options) (a : Symbol) (done rest : List Symbol)
    (p : Progress) : Prop where
  cycle : cycle? g = none
  hidden : hiddenRecursion? g = none
  order : ∃ later, g.symbols.nonterminals = done ++ rest ++ a :: later
  run : ∃ q, treatAll options (runCorners g) [] (outset g) (done ++ rest) = .ok q ∧
    done.foldlM (substituteCorner options (runCorners g) a) q = .ok p

/-- A step arrives at no fewer drafts, or fails with no fewer. -/
def NeverShorter (p : Progress) : Except Failure Progress → Prop :=
  Meets (p.drafts.length ≤ ·.drafts.length) (p.drafts.length ≤ ·.progress.drafts.length)

variable (options) in
theorem between_outset (hg : g.WellFormed) (hhidden : hiddenRecursion? g = none) :
    Between g options [] (outset g) :=
  between_start hg (List.forall_mem_map.mpr ((hiddenRecursion?_eq_none_iff hg).mp hhidden)) _

/-- A run begins with nothing to report. -/
theorem told_outset (g : Grammar) : Told g [] (outset g) := .start rfl

theorem holds_runCorners (hg : g.WellFormed) (s t : Symbol) :
    (runCorners g).holds s t = true ↔ TransGen (Corner g.system.rules) s t :=
  RuleSystem.holds_vanishingCorners_iff hg.isScoped

/-- In every state that a run visits its invariants hold. -/
theorem Visits.within (hg : g.WellFormed) (h : Visits g options a done rest p) :
    Within g options (done ++ rest) rest a p := by
  obtain ⟨-, hhidden, ⟨later, horder⟩, q, hq, hp⟩ := h
  have hrun := told_treatAll hg (holds_runCorners hg) (between_outset options hg hhidden)
    (told_outset g) horder
  rw [hq] at hrun
  have hfold : Meets
      (fun p => Within g options (done ++ rest) rest a p ∧ Told g (done ++ rest) p) (fun _ => True)
      (done.foldlM (substituteCorner options (runCorners g) a) q) :=
    meets_substituteCorners
      (J := fun rest' p => Within g options (done ++ rest) rest' a p ∧ Told g (done ++ rest) p)
      (fun _ _ _ hsuffix h =>
        told_substituteCorner hg (holds_runCorners hg) horder hsuffix h.1 h.2)
      (List.suffix_refl _) ⟨hrun.1.within horder hg, hrun.2⟩
  rw [hp] at hfold
  exact hfold.1

/-- What is to be substituted has rules. -/
theorem Visits.exists_rule (hg : g.WellFormed) (h : Visits g options a done (c :: rest) p)
    (hholds : (runCorners g).holds c a = true) (hrule : ∃ γ, ⟨a, c :: γ⟩ ∈ rulesOf p.drafts) :
    ∃ r ∈ rulesOf p.drafts, r.lhs = c := by
  obtain ⟨later, horder⟩ := h.order
  exact (h.within hg).exists_rule horder (by simp) ((holds_runCorners hg c a).mp hholds) hrule

theorem Visits.neverShorter_substituteCorner (hg : g.WellFormed)
    (h : Visits g options a done (c :: rest) p) :
    NeverShorter p (substituteCorner options (runCorners g) a p c) := by
  refine meets_substituteCorner (fun _ => Nat.le_refl _) fun hholds hrule journal => ?_
  have hle := length_le_length_substitute (a := a) (h.exists_rule hg hholds hrule)
  exact ⟨hle, hle⟩

theorem neverShorter_removeDirect : NeverShorter p (removeDirect options a p) := by
  refine meets_removeDirect (fun _ => Nat.le_refl _) (fun _ => Nat.le_refl _) ?_
  intro _ _ journal
  have hle : p.drafts.length ≤ (turnAround a (p.introduce options a).1
      ((p.introduce options a).2.name (p.introduce options a).1) p.drafts).length := by
    rw [length_turnAround]
    exact Nat.le_succ _
  exact ⟨hle, hle⟩

/-! ## The end -/

/-- What an elimination that succeeds reports and what it leaves, by the state at the end of its
run. -/
theorem told_of_ok (hg : g.WellFormed) {helpers : List Symbol}
    (hok : (g.eliminateLeftRecursion options).result = .ok helpers) :
    ∃ p, Told g g.symbols.nonterminals p ∧
      exhaustedNames (g.eliminateLeftRecursion options).journal = exhaustedNames p.journal ∧
      (g.eliminateLeftRecursion options).grammar.system.rules = rulesOf p.drafts := by
  obtain ⟨hcycle, hhidden, p, hp, heq⟩ := run_of_result_eq_ok hok
  have hrun := told_treatAll hg (holds_runCorners hg) (between_outset options hg hhidden)
    (told_outset g) (List.append_nil _).symm
  rw [show treatAll options (runCorners g) [] (outset g) g.symbols.nonterminals = .ok p
    from hp] at hrun
  obtain ⟨served, journal, hserved, hcommit⟩ := conclude_of_clear hg hcycle hhidden hp
  rw [heq]
  refine ⟨p, hrun.2, exhaustedNames_conclude p, ?_⟩
  rw [hcommit]
  exact ((hserved.tracks.journal journal).commit_eq hg).2.1

/-- **No alternative is dropped silently.** What a run substitutes has rules at that time, so no
step makes the drafts fewer. If the elimination succeeds, the nonterminals that had productions and
have none any more are those that the journal reports, each once and in creation order; each of
them is left-recursive and was created last among the symbols that it leads to by corners and that
lead back to it. -/
theorem exhaustion_exact (hg : g.Reachable) (options : Options) :
    (∀ a done c rest p, Visits g options a done (c :: rest) p →
      ((runCorners g).holds c a = true → p.drafts.any (startsWith a c) = true →
        expansions c p.drafts ≠ []) ∧
      NeverShorter p (substituteCorner options (runCorners g) a p c)) ∧
    (∀ a p, NeverShorter p (removeDirect options a p)) ∧
    ∀ helpers, (g.eliminateLeftRecursion options).result = .ok helpers →
      let after := (g.eliminateLeftRecursion options).grammar
      exhaustedNames (g.eliminateLeftRecursion options).journal =
        (g.symbols.nonterminals.filter
          (loses g.system.rules after.system.rules)).map g.displayName ∧
      ∀ a ∈ g.symbols.nonterminals, loses g.system.rules after.system.rules a = true →
        LeftRecursive g.system.rules a ∧
          ∀ b, TransGen (Corner g.system.rules) a b → TransGen (Corner g.system.rules) b a →
            b.index ≤ a.index := by
  have hwf := hg.wellFormed
  refine ⟨fun a done c rest p hvisits => ⟨fun hholds hany => ?_,
    hvisits.neverShorter_substituteCorner hwf⟩, fun _ _ => neverShorter_removeDirect,
    fun helpers hok => ?_⟩
  · obtain ⟨r, hr, rfl⟩ := hvisits.exists_rule hwf hholds (any_startsWith_iff.mp hany)
    exact expansions_ne_nil hr
  · obtain ⟨p, htold, hnames, hrules⟩ := told_of_ok hwf hok
    dsimp only
    rw [hnames, hrules]
    refine ⟨htold.names, fun a ha hloses => ?_⟩
    obtain ⟨hrecursive, hlast⟩ := htold.last a ha hloses
    exact ⟨leftRecursive_iff.mpr hrecursive, hlast⟩

/-- In `S → A b`, `A → S a` the rule of `S` is substituted into that of `A`. Then `A` has the rule
`A → A b a` alone, and loses it. -/
theorem exhaustion_exact_mutual :
    let start : Symbol := ⟨⟨1⟩, 0⟩
    let other : Symbol := ⟨⟨1⟩, 1⟩
    let g := (Grammar.Edit.applyAll (.empty ⟨1⟩)
      [.addSymbols .nonterminal ["S", "A"], .addSymbols .terminal ["a", "b"],
        .build start [.alternative [other, ⟨⟨1⟩, 3⟩], .rule other,
          .alternative [start, ⟨⟨1⟩, 2⟩]]]).1
    Visits g {} other [] [start] (outset g) ∧ expansions start (outset g).drafts ≠ [] ∧
      (g.eliminateLeftRecursion {}).result = .ok [⟨⟨1⟩, 4⟩] ∧
      exhaustedNames (g.eliminateLeftRecursion {}).journal = ["A"] ∧
      LeftRecursive g.system.rules other := by
  intro start other g
  obtain ⟨hsubstitution, -, hend⟩ :=
    exhaustion_exact ((Grammar.Reachable.empty ⟨1⟩).applyAll _ : g.Reachable) {}
  have hvisits : Visits g {} other [] [start] (outset g) :=
    ⟨by decide +kernel, by decide +kernel, ⟨[], by decide +kernel⟩, outset g, by decide +kernel,
      rfl⟩
  have hok : (g.eliminateLeftRecursion {}).result = .ok [⟨⟨1⟩, 4⟩] := by decide +kernel
  obtain ⟨hnames, hlast⟩ := hend _ hok
  exact ⟨hvisits, (hsubstitution _ _ _ _ _ hvisits).1 (by decide +kernel) (by decide +kernel),
    hok, hnames.trans (by decide +kernel),
    (hlast other (by decide +kernel) (by decide +kernel)).1⟩

end TopDown.Transform.Elimination
