import TopDown.Proofs.Elimination.Outcome
import TopDown.Proofs.Transform.InPlace

/-!
# What the elimination leaves where it was

Both steps of the elimination replace drafts of one nonterminal in place, by drafts with the same
left-hand side and label; the second appends the drafts of its helper.

* `ActsOn a f`: `f` puts such drafts in the place of each draft of `a`, and leaves the others.
  `actsOn_expand` and `actsOn_seed` are the two steps, `filter_substitute` and `filter_turnAround`
  what they leave alone.
* `Block h rules`: the rules of a helper as they are appended. They are never touched again.
* `Layout g p`: the drafts are copies of the productions in their order, followed by the blocks of
  the helpers, and nonterminals that are not left-recursive have the drafts that they had.
* `Layout.productions`: what this says of the productions that are committed.
-/

namespace TopDown.Transform.Elimination

open Relation

variable {a b c helper : Symbol} {name : String} {drafts part rest : List Draft}

/-! ## Steps as replacements in place -/

/-- Replaces the drafts of `a`, in place, by drafts with the same key, and leaves the others. -/
structure ActsOn (a : Symbol) (f : Draft → List Draft) : Prop where
  key : ∀ d, ∀ e ∈ f d, e.key = d.key
  other : ∀ d, d.lhs ≠ a → f d = [d]

section ActsOn

variable {f : Draft → List Draft}

theorem ActsOn.filter_flatMap (hf : ActsOn a f) (hb : b ≠ a) (drafts : List Draft) :
    (drafts.flatMap f).filter (·.lhs = b) = drafts.filter (·.lhs = b) := by
  induction drafts with
  | nil => rfl
  | cons d drafts ih =>
      rw [List.flatMap_cons, List.filter_append, ih]
      by_cases hd : d.lhs = a
      · have hne : d.lhs ≠ b := fun heq => hb (heq.symm.trans hd)
        have hnone : (f d).filter (·.lhs = b) = [] := by
          refine List.filter_eq_nil_iff.mpr fun e he hlhs => hne ?_
          rw [← of_decide_eq_true hlhs]
          exact (congrArg Prod.fst (hf.key d e he)).symm
        rw [hnone, List.filter_cons_of_neg (by simpa using hne), List.nil_append]
      · rw [hf.other d hd, ← List.filter_append, List.singleton_append]

theorem ActsOn.flatMap_of_forall (hf : ActsOn a f) (h : ∀ d ∈ drafts, d.lhs ≠ a) :
    drafts.flatMap f = drafts := by
  induction drafts with
  | nil => rfl
  | cons d drafts ih =>
      rw [List.forall_mem_cons] at h
      rw [List.flatMap_cons, hf.other d h.1, ih h.2, List.singleton_append]

end ActsOn

/-- What a substitution puts in the place of a draft. -/
def expand (a c : Symbol) (beginnings : List (List Symbol)) (d : Draft) : List Draft :=
  if startsWith a c d then
    beginnings.map fun beginning => { label := d.label, lhs := a, rhs := beginning ++ d.rhs.tail }
  else [d]

theorem substitute_eq (a c : Symbol) (drafts : List Draft) :
    substitute a c drafts = drafts.flatMap (expand a c (expansions c drafts)) := rfl

theorem actsOn_expand (a c : Symbol) (beginnings : List (List Symbol)) :
    ActsOn a (expand a c beginnings) where
  key := by
    intro d e he
    unfold expand at he
    split at he
    · rename_i hstart
      obtain ⟨beginning, -, rfl⟩ := List.mem_map.mp he
      exact Prod.ext (startsWith_iff.mp hstart).1.symm rfl
    · rw [List.mem_singleton.mp he]
  other := fun d hd => if_neg fun hstart => hd (startsWith_iff.mp hstart).1

/-- What becomes of a draft where direct recursion is turned around. -/
def seed (a helper : Symbol) (d : Draft) : List Draft :=
  if isRecursive a d then []
  else [if d.lhs = a then { label := d.label, lhs := a, rhs := d.rhs ++ [helper] } else d]

theorem seeds_eq (a helper : Symbol) (drafts : List Draft) :
    seeds a helper drafts = drafts.flatMap (seed a helper) := by
  induction drafts with
  | nil => rfl
  | cons d drafts ih =>
      rw [List.flatMap_cons, ← ih, seed, seeds]
      cases hd : isRecursive a d with
      | true =>
          rw [List.filter_cons_of_neg (by simp [hd])]
          rfl
      | false =>
          rw [List.filter_cons_of_pos (by simp [hd])]
          rfl

theorem actsOn_seed (a helper : Symbol) : ActsOn a (seed a helper) where
  key := by
    intro d e he
    unfold seed at he
    split at he
    · cases he
    · rw [List.mem_singleton.mp he]
      split
      · rename_i hlhs
        exact Prod.ext hlhs.symm rfl
      · rfl
  other := by
    intro d hd
    rw [seed, if_neg fun hrec => hd (isRecursive_iff.mp hrec).1, if_neg hd]

/-- A substitution leaves the drafts of other symbols alone. -/
theorem filter_substitute (hb : b ≠ a) :
    (substitute a c drafts).filter (·.lhs = b) = drafts.filter (·.lhs = b) := by
  rw [substitute_eq]
  exact (actsOn_expand a c (expansions c drafts)).filter_flatMap hb drafts

/-- Turning recursion around leaves the drafts of symbols other than the helper alone. -/
theorem filter_turnAround (hb : b ≠ a) (hhelper : b ≠ helper) :
    (turnAround a helper name drafts).filter (·.lhs = b) = drafts.filter (·.lhs = b) := by
  have hnone : (helperDrafts helper name
      ((recursiveTails a drafts).map (· ++ [helper]) ++ [[]])).filter (·.lhs = b) = [] := by
    refine filter_helperDrafts_eq_nil fun d hd _ => decide_eq_false ?_
    rw [hd]
    exact hhelper.symm
  rw [turnAround, List.filter_append, hnone, List.append_nil, seeds_eq]
  exact (actsOn_seed a helper).filter_flatMap hb drafts

/-! ## The layout of the drafts -/

/-- The rules of a helper: those that were left-recursive, with the helper at their end instead,
and the empty one. -/
def Block (h : Symbol) (rules : List Rule) : Prop :=
  ∃ tails : List (List Symbol), tails ≠ [] ∧ (∀ tail ∈ tails, tail ≠ []) ∧
    rules = tails.map (fun tail => ⟨h, tail ++ [h]⟩) ++ [⟨h, []⟩]

theorem Block.lhs_eq {h : Symbol} {rules : List Rule} (hblock : Block h rules) :
    ∀ r ∈ rules, r.lhs = h := by
  obtain ⟨tails, -, -, rfl⟩ := hblock
  intro r hr
  rcases List.mem_append.mp hr with hr | hr
  · obtain ⟨tail, -, rfl⟩ := List.mem_map.mp hr
    rfl
  · rw [List.mem_singleton.mp hr]

/-- The drafts that are appended are a block. -/
theorem block_helperDrafts (h : ∃ γ, ⟨a, a :: γ⟩ ∈ rulesOf drafts)
    (hself : ⟨a, [a]⟩ ∉ rulesOf drafts) : Block helper (rulesOf (helperDrafts helper name
      ((recursiveTails a drafts).map (· ++ [helper]) ++ [[]]))) := by
  obtain ⟨γ, hγ⟩ := h
  refine ⟨recursiveTails a drafts, List.ne_nil_of_mem (mem_recursiveTails_iff.mpr hγ), ?_, ?_⟩
  · rintro tail htail rfl
    exact hself (mem_recursiveTails_iff.mp htail)
  · rw [rulesOf_helperDrafts, List.map_append, List.map_map]
    rfl

variable {g : Grammar} {p : Progress} {options : Options} {corners : SymbolRelation}

/-- The drafts of an elimination under way: copies of the productions of `g` in their order, and
behind them the blocks of the helpers. -/
structure Layout (g : Grammar) (p : Progress) : Prop where
  tracks : p.Tracks g
  parts : ∃ part rest, p.drafts = part ++ rest ∧
    InPlace Copies (g.productions.map (·.key)) (part.map (·.key)) ∧
    InPlace Block p.helpers (rulesOf rest)
  kept : ∀ b, g.symbols.contains b = true → ¬LeftRecursive g.system.rules b →
    p.drafts.filter (·.lhs = b) = g.drafts.filter (·.lhs = b)

namespace Layout

theorem start (hg : g.WellFormed) (journal : Array Event) : Layout g (.start g journal) where
  tracks := .start hg journal
  parts := by
    refine ⟨g.drafts, [], (List.append_nil _).symm, ?_, .nil⟩
    rw [Grammar.map_key_drafts]
    exact .of_sublist (.refl _)
  kept := fun _ _ _ => rfl

/-- A nonterminal with a rule that leads back to it was left-recursive from the start. -/
theorem leftRecursive_of_mem (hp : Layout g p) (ha : g.symbols.contains a = true) {γ : List Symbol}
    (hrule : ⟨a, c :: γ⟩ ∈ rulesOf p.drafts) (hback : ReflTransGen (Corner g.system.rules) c a) :
    LeftRecursive g.system.rules a := by
  by_contra hnot
  -- If it was not, the rule is one of the grammar.
  obtain ⟨d, hd, heq⟩ := mem_rulesOf_iff.mp hrule
  have hmem : d ∈ p.drafts.filter (·.lhs = a) :=
    List.mem_filter.mpr ⟨hd, decide_eq_true (congrArg Rule.lhs heq)⟩
  rw [hp.kept a ha hnot] at hmem
  have hrule : ⟨a, c :: γ⟩ ∈ g.system.rules := by
    rw [rules_eq_rulesOf, ← heq]
    exact mem_rulesOf (List.mem_of_mem_filter hmem)
  refine hnot (leftRecursive_iff.mpr (TransGen.head' ?_ hback))
  exact ⟨_, hrule, rfl, [], γ, rfl, allVanish_nil, trivial⟩

/-- A step on a nonterminal leaves the blocks alone, since their left-hand sides are helpers. -/
theorem act (hp : Layout g p) {f : Draft → List Draft} (hf : ActsOn a f)
    (ha : g.symbols.contains a = true) :
    ∃ part rest, p.drafts.flatMap f = part ++ rest ∧
      InPlace Copies (g.productions.map (·.key)) (part.map (·.key)) ∧
      InPlace Block p.helpers (rulesOf rest) := by
  obtain ⟨part, rest, heq, hpart, hrest⟩ := hp.parts
  refine ⟨part.flatMap f, rest, ?_, ?_, hrest⟩
  · have hother : ∀ d ∈ rest, d.lhs ≠ a := by
      rintro d hd rfl
      obtain ⟨h, hh, rules, hblock, hmem⟩ := hrest.exists_of_mem (mem_rulesOf hd)
      have hlhs := hblock.lhs_eq _ hmem
      exact hp.tracks.not_contains_helper hh (hlhs ▸ ha)
    rw [heq, List.flatMap_append, hf.flatMap_of_forall hother]
  · exact hpart.trans_copies (InPlace.flatMap hf.key part)

theorem ne_of_not_leftRecursive (hrec : LeftRecursive g.system.rules a)
    (hnot : ¬LeftRecursive g.system.rules b) : b ≠ a := by
  rintro rfl
  exact hnot hrec

theorem substitute (hp : Layout g p) (ha : g.symbols.contains a = true)
    (hrec : LeftRecursive g.system.rules a) (journal : Array Event) :
    Layout g { p with drafts := substitute a c p.drafts, changed := true, journal } := by
  refine ⟨tracks_substitute hp.tracks journal, ?_, fun b hb hnot => ?_⟩
  · exact hp.act (actsOn_expand a c (expansions c p.drafts)) ha
  · exact (filter_substitute (ne_of_not_leftRecursive hrec hnot)).trans (hp.kept b hb hnot)

theorem turnAround (hp : Layout g p) (ha : g.symbols.contains a = true)
    (hrec : LeftRecursive g.system.rules a) (hrule : ∃ γ, ⟨a, a :: γ⟩ ∈ rulesOf p.drafts)
    (hself : ⟨a, [a]⟩ ∉ rulesOf p.drafts) (journal : Array Event) :
    let issued := p.introduce options a
    Layout g { issued.2 with
      drafts := turnAround a issued.1 (issued.2.name issued.1) p.drafts
      changed := true
      journal } := by
  intro issued
  let added := helperDrafts issued.1 (issued.2.name issued.1)
    ((recursiveTails a p.drafts).map (· ++ [issued.1]) ++ [[]])
  have hblock : Block issued.1 (rulesOf added) := block_helperDrafts hrule hself
  obtain ⟨part, rest, heq, hpart, hrest⟩ := hp.act (actsOn_seed a issued.1) ha
  rw [← seeds_eq] at heq
  refine ⟨tracks_turnAround hp.tracks journal, ⟨part, rest ++ added, ?_, hpart, ?_⟩,
    fun b hb hnot => ?_⟩
  · show seeds a issued.1 p.drafts ++ added = _
    rw [heq, List.append_assoc]
  · rw [rulesOf_append]
    exact hrest.concat hblock
  · have hne := ne_of_not_leftRecursive hrec hnot
    have hnew : b ≠ issued.1 := hp.tracks.ne_introduce hb
    exact (filter_turnAround hne hnew).trans (hp.kept b hb hnot)

/-! ## The run -/

variable (options) in
theorem treatAll
    (hcorners : ∀ s t, corners.holds s t = true ↔ TransGen (Corner g.system.rules) s t)
    (hp : Layout g p) :
    Meets (Layout g) (Layout g ·.progress)
      (treatAll options corners [] p g.symbols.nonterminals) := by
  have hlive : ∀ {earlier later a}, g.symbols.nonterminals = earlier ++ a :: later →
      g.symbols.contains a = true := fun {_ _ a} horder =>
    SymbolTable.contains_of_kind? (kind?_of_mem_order horder (s := a) (by simp))
  refine meets_treatAll_of_steps ?_ ?_ (List.nil_append _).symm hp
  · rintro earlier a later c p horder - hp hholds ⟨γ, hγ⟩ journal
    have hrec := hp.leftRecursive_of_mem (hlive horder) hγ
      ((hcorners c a).mp hholds).to_reflTransGen
    exact hp.substitute (hlive horder) hrec journal
  · rintro earlier a later p horder hp ⟨γ, hγ⟩ hself journal
    have hrec := hp.leftRecursive_of_mem (hlive horder) hγ .refl
    exact hp.turnAround (hlive horder) hrec ⟨γ, hγ⟩ hself journal

/-- What is committed has this layout, and productions of nonterminals that are not left-recursive
are the ones that they were. -/
theorem productions (hp : Layout g p) (hg : g.WellFormed) :
    (∀ q ∈ g.productions, ¬LeftRecursive g.system.rules q.lhs →
      q ∈ p.commit.grammar.productions) ∧
    ∃ part rest, p.commit.grammar.productions = part ++ rest ∧
      InPlace Copies (g.productions.map (·.key)) (part.map (·.key)) ∧
      InPlace Block p.helpers (rest.map (·.toRule)) := by
  rw [hp.tracks.productions_commit hg]
  refine ⟨fun q hq hnot => Grammar.mem_numbered ?_, ?_⟩
  · have hdraft : q.draft ∈ g.drafts.filter (·.lhs = q.lhs) :=
      List.mem_filter.mpr ⟨List.mem_map_of_mem hq, decide_eq_true rfl⟩
    rw [← hp.kept q.lhs (SymbolTable.contains_of_kind? (hg.admits q hq).1) hnot] at hdraft
    exact List.mem_of_mem_filter hdraft
  · obtain ⟨part, rest, heq, hpart, hrest⟩ := hp.parts
    refine ⟨_, _, heq ▸ Grammar.numbered_append, ?_, ?_⟩
    · rw [Grammar.map_key_numbered]
      exact hpart
    · rw [Grammar.map_toRule_numbered]
      exact hrest

end Layout

theorem exists_layout_of_ok (hg : g.WellFormed) {helpers : List Symbol}
    (hok : (g.eliminateLeftRecursion options).result = .ok helpers) :
    ∃ p, Layout g p ∧ p.helpers = helpers ∧ g.eliminateLeftRecursion options = p.commit := by
  obtain ⟨journal, p, hp, journal', heq⟩ := exists_of_result_eq_ok hok
  have hrun := Layout.treatAll options
    (fun _ _ => RuleSystem.holds_vanishingCorners_iff hg.isScoped) (Layout.start hg journal)
  rw [hp] at hrun
  obtain ⟨htracks, hparts, hkept⟩ := hrun
  have hlayout : Layout g { p with journal := journal' } :=
    ⟨htracks.journal journal', hparts, hkept⟩
  refine ⟨_, hlayout, ?_, heq⟩
  rw [heq, (hlayout.tracks.commit_eq hg).1] at hok
  exact Except.ok.inj hok

end TopDown.Transform.Elimination
