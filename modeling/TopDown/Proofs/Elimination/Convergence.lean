import TopDown.Proofs.Elimination.Faithful

/-!
# The run converges

`Underway` is the invariant of a run on a grammar that has neither cycles nor hidden left
recursion. It is established at the start (`underway_start`), kept by each substitution
(`Underway.substitute`) and by each removal of direct recursion (`Underway.keep`,
`Underway.turnAround`), and so it holds after each nonterminal of a run (`underway_treatAll`).

* `Underway.not_transGen_corner`: at the end no left recursion is left.
* `Underway.served_ne_nil`: if there was some at the start, helpers were issued.
-/

namespace TopDown.Transform.Elimination

open Relation

variable {g : Grammar} {options : Options} {corners : SymbolRelation} {p : Progress}
  {earlier later rest : List Symbol} {served : List (Symbol × Symbol)} {a b h s z : Symbol}

/-! ## Helpers and what they serve -/

/-- The helper `h` carries the recursion of the nonterminal `a` and is named after it. -/
structure Serves (g : Grammar) (options : Options) (symbols : SymbolTable) (current : List Rule)
    (h a : Symbol) : Prop where
  named : ∃ number, symbols.name? h = some (g.displayName a ++ options.suffix ++ number)
  alternatives : ∀ β, ⟨a, β⟩ ∈ current → ∃ α, β = α ++ [h]
  tails : ∀ β, ⟨h, β⟩ ∈ current → β = [] ∨ ∃ α, β = α ++ [h]

/-- The nonterminal that a symbol serves, if it is a helper. -/
def baseOf (served : List (Symbol × Symbol)) (s : Symbol) : Option Symbol := served.lookup s

theorem baseOf_concat_self (hnew : ∀ q ∈ served, q.1 ≠ h) :
    baseOf (served ++ [(h, a)]) h = some a := by
  have hnone : served.lookup h = none :=
    List.lookup_eq_none_iff.mpr fun q hq => bne_iff_ne.mpr (hnew q hq).symm
  rw [baseOf, List.lookup_append, hnone]
  simp

theorem baseOf_concat_of_ne (hs : s ≠ h) : baseOf (served ++ [(h, a)]) s = baseOf served s := by
  rw [baseOf, List.lookup_append, List.lookup_singleton, if_neg (by simpa using hs),
    Option.or_none]
  rfl

/-- What holds of a run after the nonterminals of a list. Each pair of `served` is a helper and
the nonterminal that it serves. -/
structure Underway (g : Grammar) (options : Options) (earlier : List Symbol)
    (served : List (Symbol × Symbol)) (p : Progress) : Prop where
  tracks : p.Tracks g
  helpers : served.map Prod.fst = p.helpers
  bases : (served.map Prod.snd).Sublist earlier
  recursive : ∀ q ∈ served, TransGen (Corner g.system.rules) q.2 q.2
  serves : ∀ q ∈ served, Serves g options p.grammar.symbols (rulesOf p.drafts) q.1 q.2
  sound : Sound g.system.rules (baseOf served) (rulesOf p.drafts)
  ordered : ∀ a ∈ earlier, Ordered g.system.rules (baseOf served) (rulesOf p.drafts) a
  seeded : served = [] → ∀ a, TransGen (Corner g.system.rules) a a →
    ∃ z γ, ⟨a, z :: γ⟩ ∈ rulesOf p.drafts ∧ ReflTransGen (Corner g.system.rules) z a

theorem exists_freshName_eq (table : SymbolTable) (base suffix : String) :
    ∃ number, table.freshName base suffix = base ++ suffix ++ number := by
  unfold SymbolTable.freshName
  dsimp only
  split
  · split
    · exact ⟨_, rfl⟩
    · exact ⟨"", by simp⟩
  · exact ⟨"", by simp⟩

theorem kind?_of_corner (hg : g.WellFormed) (h : Corner g.system.rules a b) :
    g.symbols.kind? a = some .nonterminal := by
  obtain ⟨r, hr, rfl, -⟩ := h
  obtain ⟨q, hq, rfl⟩ := List.mem_map.mp hr
  exact (hg.admits q hq).1

/-- A symbol that leads to `a` is an earlier nonterminal, `a` itself or a later one. -/
theorem mem_earlier_or (horder : g.symbols.nonterminals = earlier ++ a :: later)
    (hg : g.WellFormed) (hz : ReflTransGen (Corner g.system.rules) z a) :
    z ∈ earlier ∨ z = a ∨ a.index < z.index := by
  rcases reflTransGen_iff_eq_or_transGen.mp hz with rfl | hz
  · exact Or.inr (Or.inl rfl)
  · obtain ⟨c, hc, -⟩ := TransGen.head'_iff.mp hz
    have hmem := SymbolTable.mem_nonterminals_iff.mpr (kind?_of_corner hg hc)
    rw [horder] at hmem
    rcases List.mem_append.mp hmem with hmem | hmem
    · exact Or.inl hmem
    · rcases List.mem_cons.mp hmem with rfl | hmem
      · exact Or.inr (Or.inl rfl)
      · have hlater := (List.pairwise_append.mp (pairwise_order horder)).2.1
        exact Or.inr (Or.inr ((List.pairwise_cons.mp hlater).1 z hmem))

theorem underway_start (hg : g.WellFormed) (hhides : ∀ r ∈ g.system.rules, ¬Hides g.system.rules r)
    (journal : Array Event) : Underway g options [] [] (.start g journal) := by
  have hrules : rulesOf (Progress.start g journal).drafts = g.system.rules :=
    (rules_eq_rulesOf g).symm
  refine ⟨.start hg journal, rfl, List.Sublist.refl _, by simp, by simp, ?_, by simp, ?_⟩
  · rw [hrules]
    exact sound_start hhides
  · intro _ a ha
    obtain ⟨z, ⟨r, hr, rfl, α, β, hrhs, hα, -⟩, hback⟩ := TransGen.head'_iff.mp ha
    have hnil : α = [] := by
      by_contra hne
      exact hhides r hr (hides_iff.mpr ⟨α, z, β, hrhs, hne, hα, hback⟩)
    rw [hnil, List.nil_append] at hrhs
    refine ⟨z, β, ?_, hback⟩
    rw [hrules, ← hrhs]
    exact hr

/-! ## What the invariant says of single symbols -/

namespace Underway

theorem baseOf_eq_none (hp : Underway g options earlier served p)
    (hs : g.symbols.contains s = true) : baseOf served s = none := by
  refine List.lookup_eq_none_iff.mpr fun q hq => ?_
  rw [bne_iff_ne]
  rintro rfl
  have hmem : q.1 ∈ p.helpers := by
    rw [← hp.helpers]
    exact List.mem_map_of_mem hq
  exact hp.tracks.not_contains_helper hmem hs

theorem mem_of_baseOf (hbase : baseOf served h = some b) : (h, b) ∈ served := by
  obtain ⟨_, _, rfl, -⟩ := List.lookup_eq_some_iff.mp hbase
  simp

theorem contains_of_baseOf_eq_none (hp : Underway g options earlier served p)
    (hs : p.grammar.symbols.contains s = true) (hnone : baseOf served s = none) :
    g.symbols.contains s = true := by
  rcases hp.tracks.contains_iff.mp hs with hs | hmem
  · exact hs
  · rw [← hp.helpers] at hmem
    obtain ⟨q, hq, rfl⟩ := List.mem_map.mp hmem
    have hne := List.lookup_eq_none_iff.mp hnone q hq
    exact absurd rfl (bne_iff_ne.mp hne)

theorem not_contains_helper (hp : Underway g options earlier served p) {q : Symbol × Symbol}
    (hq : q ∈ served) : g.symbols.contains q.1 ≠ true := by
  refine hp.tracks.not_contains_helper ?_
  rw [← hp.helpers]
  exact List.mem_map_of_mem hq

theorem contains_helper (hp : Underway g options earlier served p) {q : Symbol × Symbol}
    (hq : q ∈ served) : p.grammar.symbols.contains q.1 = true := by
  refine hp.tracks.contains_iff.mpr (Or.inr ?_)
  rw [← hp.helpers]
  exact List.mem_map_of_mem hq

theorem mem_earlier (hp : Underway g options earlier served p) {q : Symbol × Symbol}
    (hq : q ∈ served) : q.2 ∈ earlier :=
  hp.bases.subset (List.mem_map_of_mem hq)

theorem baseOf_of_mem_order (hp : Underway g options earlier served p)
    (horder : g.symbols.nonterminals = earlier ++ a :: later) (hs : s ∈ earlier ++ a :: later) :
    baseOf served s = none :=
  hp.baseOf_eq_none (SymbolTable.contains_of_kind? (kind?_of_mem_order horder hs))

/-- A change that touches rules of `a` and of symbols that are nowhere leaves the earlier helpers
as they are. -/
theorem serves_of_kept (hp : Underway g options earlier served p)
    (horder : g.symbols.nonterminals = earlier ++ a :: later) {symbols : SymbolTable}
    {current : List Rule}
    (hname : ∀ s, p.grammar.symbols.contains s = true →
      symbols.name? s = p.grammar.symbols.name? s)
    (hkept : ∀ r ∈ current, p.grammar.symbols.contains r.lhs = true → r.lhs ≠ a →
      r ∈ rulesOf p.drafts) {q : Symbol × Symbol} (hq : q ∈ served) :
    Serves g options symbols current q.1 q.2 := by
  obtain ⟨⟨number, hnumber⟩, halternatives, htails⟩ := hp.serves q hq
  have hmem := hp.mem_earlier hq
  have hkind := kind?_of_mem_order horder (List.mem_append_left _ hmem)
  have hcontains := hp.contains_helper hq
  refine ⟨⟨number, (hname _ hcontains).trans hnumber⟩,
    fun β hβ => halternatives β (hkept _ hβ ?_ ?_), fun β hβ => htails β (hkept _ hβ hcontains ?_)⟩
  · exact hp.tracks.contains_iff.mpr (Or.inl (SymbolTable.contains_of_kind? hkind))
  · rintro rfl
    exact not_mem_earlier horder hmem
  · rintro rfl
    exact hp.not_contains_helper hq
      (SymbolTable.contains_of_kind? (kind?_of_mem_order horder (by simp)))

end Underway

/-! ## Substitution -/

/-- The rules of `a` lead back to it through corners that are still to come, through `a` itself
or through later nonterminals. -/
def Pending (g : Grammar) (served : List (Symbol × Symbol)) (current : List Rule)
    (rest : List Symbol) (a : Symbol) : Prop :=
  ∀ z γ, ⟨a, z :: γ⟩ ∈ current → baseOf served z = none →
    ReflTransGen (Corner g.system.rules) z a → z ∈ rest ∨ z = a ∨ a.index < z.index

section Treat

variable (hp : Underway g options earlier served p)
  (horder : g.symbols.nonterminals = earlier ++ a :: later)
include hp horder

theorem Underway.substitute (hb : b ∈ earlier) (hreach : TransGen (Corner g.system.rules) b a)
    (journal : Array Event) :
    Underway g options earlier served
      { p with drafts := substitute a b p.drafts, changed := true, journal } := by
  have ha := hp.baseOf_of_mem_order horder (s := a) (by simp)
  have hb' := hp.baseOf_of_mem_order horder (List.mem_append_left _ hb)
  refine ⟨tracks_substitute hp.tracks journal, hp.helpers, hp.bases, hp.recursive, ?_,
    hp.sound.substitute ha hb', ?_, ?_⟩
  · intro q hq
    refine hp.serves_of_kept horder (fun _ _ => rfl) (fun r hr _ hne => ?_) hq
    exact mem_rulesOf_of_substitute hr hne
  · intro c hc
    refine (hp.ordered c hc).of_kept (fun r hr hlhs => mem_rulesOf_of_substitute hr ?_) fun _ => id
    rw [hlhs]
    rintro rfl
    exact not_mem_earlier horder hc
  · intro hnil x hx
    obtain ⟨z, γ, hrule, hback⟩ := hp.seeded hnil x hx
    by_cases hstart : x = a ∧ z = b
    · obtain ⟨rfl, rfl⟩ := hstart
      have hcorner : TransGen (Corner g.system.rules) x z :=
        (hp.sound.original _ hrule ha).corner (α := []) (by simp) hb'
      -- The rule is gone, but some expansion of `b` starts with a symbol that leads back.
      obtain ⟨z', β, hβ, hback'⟩ := hp.seeded hnil z (hreach.trans hcorner)
      refine ⟨z', β ++ γ, mem_rulesOf_substitute_iff.mpr (Or.inr ?_), hback'.trans hback⟩
      exact ⟨γ, z' :: β, hrule, hβ, rfl⟩
    · refine ⟨z, γ, mem_rulesOf_substitute_iff.mpr (Or.inl ⟨hrule, ?_⟩), hback⟩
      rintro ⟨rfl, δ, hδ⟩
      exact hstart ⟨rfl, (List.cons_eq_cons.mp hδ).1⟩

theorem Underway.pending_substitute (hg : g.WellFormed) (hsuffix : b :: rest <:+ earlier)
    (hpending : Pending g served (rulesOf p.drafts) (b :: rest) a) :
    Pending g served (rulesOf (Elimination.substitute a b p.drafts)) rest a := by
  have hb : b ∈ earlier := hsuffix.subset List.mem_cons_self
  have ha := hp.baseOf_of_mem_order horder (s := a) (by simp)
  have hb' := hp.baseOf_of_mem_order horder (List.mem_append_left _ hb)
  intro z γ hrule hz hback
  rcases mem_rulesOf_substitute_iff.mp hrule with ⟨hold, hne⟩ | ⟨δ, β, hδ, hβ, heq⟩
  · refine (hpending z γ hold hz hback).imp_left fun hmem => ?_
    rcases List.mem_cons.mp hmem with rfl | hmem
    · exact absurd ⟨rfl, γ, rfl⟩ hne
    · exact hmem
  · have hfaithful := hp.sound.original _ hδ ha
    have hfaithful' := hp.sound.original _ hβ hb'
    have hrhs : z :: γ = β ++ δ := congrArg Rule.rhs heq
    rcases List.cons_eq_append_iff.mp hrhs with ⟨rfl, rfl⟩ | ⟨β', rfl, rfl⟩
    · -- An empty expansion of `b` exposes `z` behind `b`, so `z` does not lead back.
      have hvanish : Vanishes g.system.rules b := hfaithful'.vanishes (by simp)
      refine absurd hback (hfaithful.exposed [b] z γ rfl (by simp) (fun s hs => ?_) hz)
      rw [List.mem_singleton.mp hs]
      exact Or.inr hvanish
    · have hcorner : TransGen (Corner g.system.rules) a b :=
        hfaithful.corner (α := []) (by simp) hb'
      have hlt := hp.ordered b hb z β' hβ hz (hback.trans hcorner.to_reflTransGen)
      refine (mem_earlier_or horder hg hback).imp_left fun hmem => ?_
      obtain ⟨front, rfl⟩ := hsuffix
      have hearlier := List.pairwise_append.mp (List.pairwise_append.mp (pairwise_order horder)).1
      rcases List.mem_append.mp hmem with hmem | hmem
      · have hgt := hearlier.2.2 z hmem b List.mem_cons_self
        omega
      · rcases List.mem_cons.mp hmem with rfl | hmem
        · exact absurd hlt (Nat.lt_irrefl _)
        · exact hmem

omit hp in
/-- A substitution that is left out had nothing to do. -/
theorem pending_of_skip (hcorners : ∀ s t, corners.holds s t = true ↔
      TransGen (Corner g.system.rules) s t)
    (hb : b ∈ earlier) {current : List Rule}
    (hskip : corners.holds b a = true → ∀ γ, ⟨a, b :: γ⟩ ∉ current)
    (hpending : Pending g served current (b :: rest) a) : Pending g served current rest a := by
  intro z γ hrule hz hback
  refine (hpending z γ hrule hz hback).imp_left fun hmem => ?_
  rcases List.mem_cons.mp hmem with rfl | hmem
  · rcases reflTransGen_iff_eq_or_transGen.mp hback with rfl | hreach
    · exact absurd hb (not_mem_earlier horder)
    · exact absurd hrule (hskip ((hcorners z a).mpr hreach) γ)
  · exact hmem

/-! ## Removal of direct recursion -/

omit horder in
/-- Without direct recursion `a` is done. -/
theorem Underway.keep (hpending : Pending g served (rulesOf p.drafts) [] a)
    (hnone : ∀ γ, ⟨a, a :: γ⟩ ∉ rulesOf p.drafts) :
    Underway g options (earlier ++ [a]) served p := by
  refine ⟨hp.tracks, hp.helpers, hp.bases.trans (List.sublist_append_left _ _), hp.recursive,
    hp.serves, hp.sound, ?_, hp.seeded⟩
  intro c hc
  rcases List.mem_append.mp hc with hc | hc
  · exact hp.ordered c hc
  · rw [List.mem_singleton.mp hc]
    intro z γ hrule hz hback
    rcases hpending z γ hrule hz hback with hmem | rfl | hlt
    · cases hmem
    · exact absurd hrule (hnone γ)
    · exact hlt

omit hp horder in
/-- Behind a helper nothing leads back any more, and what else `a` starts with is later. -/
theorem ordered_turnAround {drafts : List Draft} {name : String} {base' : Symbol → Option Symbol}
    (hne : a ≠ h) (hself : base' h = some a) (hother : ∀ s, s ≠ h → base' s = baseOf served s)
    (hpending : Pending g served (rulesOf drafts) [] a) :
    Ordered g.system.rules base' (rulesOf (turnAround a h name drafts)) a := by
  intro z γ hrule hz hback
  have hzne : z ≠ h := by
    rintro rfl
    rw [hself] at hz
    cases hz
  rw [hother z hzne] at hz
  rcases mem_rulesOf_turnAround_iff.mp hrule with
    (⟨-, hlhs⟩ | ⟨β, hβ, hstart, heq⟩) | ⟨_, -, heq⟩ | heq
  · exact absurd rfl hlhs
  · have hrhs : z :: γ = β ++ [h] := congrArg Rule.rhs heq
    rcases List.cons_eq_append_iff.mp hrhs with ⟨-, hend⟩ | ⟨β', rfl, -⟩
    · exact absurd (List.cons_eq_cons.mp hend).1.symm hzne
    · rcases hpending z β' hβ hz hback with hmem | rfl | hlt
      · cases hmem
      · exact absurd rfl (hstart β')
      · exact hlt
  · exact absurd (congrArg Rule.lhs heq) hne
  · exact absurd (congrArg Rule.lhs heq) hne

/-- The helper that is issued for `a` serves it. -/
theorem Underway.serves_introduce :
    let issued := p.introduce options a
    Serves g options issued.2.grammar.symbols
      (rulesOf (Elimination.turnAround a issued.1 (issued.2.name issued.1) p.drafts))
      issued.1 a := by
  intro issued
  have hcontains := SymbolTable.contains_of_kind? (kind?_of_mem_order horder (s := a) (by simp))
  have hne : a ≠ issued.1 := hp.tracks.ne_introduce hcontains
  refine ⟨?_, fun β hβ => ?_, fun β hβ =>
    rightRecursive_turnAround hne (hp.tracks.fresh options a) _ hβ rfl⟩
  · obtain ⟨number, hnumber⟩ := exists_freshName_eq p.grammar.symbols (p.name a) options.suffix
    refine ⟨number, Progress.name?_introduce.trans (congrArg some ?_)⟩
    rw [hnumber, hp.tracks.name_eq hcontains]
  · rcases mem_rulesOf_turnAround_iff.mp hβ with
      (⟨-, hlhs⟩ | ⟨α, -, -, heq⟩) | ⟨_, -, heq⟩ | heq
    · exact absurd rfl hlhs
    · exact ⟨α, congrArg Rule.rhs heq⟩
    · exact absurd (congrArg Rule.lhs heq) hne
    · exact absurd (congrArg Rule.lhs heq) hne

theorem Underway.turnAround (hpending : Pending g served (rulesOf p.drafts) [] a)
    (hrec : ∃ γ, ⟨a, a :: γ⟩ ∈ rulesOf p.drafts) (journal : Array Event) :
    let issued := p.introduce options a
    Underway g options (earlier ++ [a]) (served ++ [(issued.1, a)])
      { issued.2 with
        drafts := turnAround a issued.1 (issued.2.name issued.1) p.drafts
        changed := true
        journal } := by
  intro issued
  have ha := hp.baseOf_of_mem_order horder (s := a) (by simp)
  -- No name of the order is the helper, which was issued just now; so all that is known of the
  -- bases stays as it was, except at the helper.
  have hnew : ∀ s ∈ earlier ++ a :: later, s ≠ issued.1 := fun s hs =>
    hp.tracks.ne_introduce (SymbolTable.contains_of_kind? (kind?_of_mem_order horder hs))
  have hne := hnew a (by simp)
  have hself : baseOf (served ++ [(issued.1, a)]) issued.1 = some a :=
    baseOf_concat_self fun q hq => Progress.ne_introduce (hp.contains_helper hq)
  have hother : ∀ s, s ≠ issued.1 → baseOf (served ++ [(issued.1, a)]) s = baseOf served s :=
    fun s => baseOf_concat_of_ne
  have hbases : ∀ s, baseOf served s ≠ some issued.1 := by
    intro s hs
    have hmem := hp.mem_earlier (Underway.mem_of_baseOf hs)
    exact hnew _ (List.mem_append_left _ hmem) rfl
  refine ⟨tracks_turnAround hp.tracks journal, ?_, ?_, ?_, ?_,
    hp.sound.turnAround (hp.tracks.fresh options a) (hp.tracks.index_lt_introduce options a)
      hbases ha hne hself hother, ?_, ?_⟩
  · rw [List.map_append, hp.helpers]
    rfl
  · rw [List.map_append]
    exact hp.bases.append (List.Sublist.refl _)
  · intro q hq
    rcases List.mem_append.mp hq with hq | hq
    · exact hp.recursive q hq
    · rw [List.mem_singleton.mp hq]
      -- The rule that starts with its own left side stands for a corner of the grammar.
      obtain ⟨γ, hγ⟩ := hrec
      exact (hp.sound.original _ hγ ha).corner (α := []) (by simp) ha
  · intro q hq
    rcases List.mem_append.mp hq with hq | hq
    · refine hp.serves_of_kept horder (fun s hs => ?_) (fun r hr hold hlhs => ?_) hq
      · exact Progress.name?_introduce_of_ne (Progress.ne_introduce hs)
      · exact mem_rulesOf_of_turnAround hr hlhs (Progress.ne_introduce hold)
    · rw [List.mem_singleton.mp hq]
      exact hp.serves_introduce horder
  · intro c hc
    rcases List.mem_append.mp hc with hearlier | hlast
    · refine (hp.ordered c hearlier).of_kept (fun r hr hlhs => ?_) fun z hz => ?_
      · refine mem_rulesOf_of_turnAround hr ?_ ?_
        · rw [hlhs]
          rintro rfl
          exact not_mem_earlier horder hearlier
        · rw [hlhs]
          exact hnew c (List.mem_append_left _ hearlier)
      · rw [← hother z]
        · exact hz
        · rintro rfl
          rw [hself] at hz
          cases hz
    · rw [List.mem_singleton.mp hlast]
      exact ordered_turnAround hne hself hother hpending
  · intro hnil
    exact absurd hnil (by simp)

end Treat

/-! ## The run -/

section Run

variable (hg : g.WellFormed) (hcycle : ∀ s, ¬Cyclic g.system.rules s)
include hg hcycle

variable (options) in
/-- **The run goes through.** Nothing but the limit can stop it, however far it has come. -/
theorem underway_treatAll (hcorners : ∀ s t, corners.holds s t = true ↔
      TransGen (Corner g.system.rules) s t)
    (hp : Underway g options [] [] p) {treated : List Symbol}
    (htreated : treated <+: g.symbols.nonterminals) :
    Meets (fun q => ∃ served, Underway g options treated served q)
      (fun f => ∃ name, f.error = .tooManyProductions options.limit name)
      (treatAll options corners [] p treated) := by
  refine meets_treatAll (K := fun earlier q => ∃ served, Underway g options earlier served q) ?_
    (List.nil_append _).symm ⟨[], hp⟩
  rintro earlier a later p hsplit ⟨served, hp⟩
  obtain ⟨rest, hrest⟩ := htreated
  have horder : g.symbols.nonterminals = earlier ++ a :: (later ++ rest) := by
    rw [← hrest, hsplit, List.append_assoc, List.cons_append]
  refine meets_treat
    (J := fun rest q => ∃ served, Underway g options earlier served q ∧
      Pending g served (rulesOf q.drafts) rest a)
    ⟨served, hp, fun _ _ _ _ hback => mem_earlier_or horder hg hback⟩ ?_ ?_
  · rintro c rest p hsuffix ⟨served, hp, hpending⟩
    have hc : c ∈ earlier := hsuffix.subset List.mem_cons_self
    refine meets_substituteCorner (fun hskip => ?_) fun hholds _ journal => ?_
    · exact ⟨served, hp, pending_of_skip horder hcorners hc hskip hpending⟩
    · have hreach := (hcorners c a).mp hholds
      exact ⟨⟨served, hp.substitute horder hc hreach journal,
        hp.pending_substitute horder hg hsuffix hpending⟩, _, rfl⟩
  · rintro p ⟨served, hp, hpending⟩
    refine meets_removeDirect (fun hnone => ?_) (fun hself => ?_) fun hrec _ journal => ?_
    · exact ⟨served, hp.keep hpending hnone⟩
    · have ha := hp.baseOf_of_mem_order horder (s := a) (by simp)
      have hderives := (hp.sound.original _ hself ha).derives
      rw [strip_cons_of_none ha] at hderives
      exact absurd hderives (hcycle a)
    · exact ⟨⟨_, hp.turnAround horder hpending hrec journal⟩, _, rfl⟩

omit hg in
theorem Underway.not_transGen_corner (hp : Underway g options g.symbols.nonterminals served p)
    (y : Symbol) : ¬TransGen (Corner (rulesOf p.drafts)) y y := by
  have hadmits := forall_mem_rulesOf_iff.mpr hp.tracks.admits
  have hbound : ∀ r ∈ rulesOf p.drafts, r.lhs.index < p.grammar.symbols.size ∧
      ∀ s ∈ r.rhs, s.index < p.grammar.symbols.size := by
    intro r hr
    obtain ⟨hlhs, hrhs⟩ := hadmits r hr
    exact ⟨(SymbolTable.lt_of_contains (SymbolTable.contains_of_kind? hlhs)).2,
      fun s hs => (SymbolTable.lt_of_contains (hrhs s hs)).2⟩
  refine Elimination.not_transGen_corner hp.sound hcycle (fun a ha z γ hrule => ?_) hbound y
  have hkind := (hadmits _ hrule).1
  have hcontains := hp.contains_of_baseOf_eq_none (SymbolTable.contains_of_kind? hkind) ha
  rw [hp.tracks.kind?_of_contains hcontains] at hkind
  exact hp.ordered a (SymbolTable.mem_nonterminals_iff.mpr hkind) z γ hrule

omit hcycle in
/-- Where there was left recursion, some nonterminal was turned around: otherwise every
left-recursive nonterminal would lead to a later one. -/
theorem Underway.served_ne_nil (hp : Underway g options g.symbols.nonterminals served p)
    (ha : TransGen (Corner g.system.rules) a a) : served ≠ [] := by
  intro hnil
  have hkind : ∀ x, TransGen (Corner g.system.rules) x x →
      g.symbols.kind? x = some .nonterminal := by
    intro x hx
    obtain ⟨c, hc, -⟩ := TransGen.head'_iff.mp hx
    exact kind?_of_corner hg hc
  have hnone : ∀ x, baseOf served x = none := by
    rw [hnil]
    exact fun _ => rfl
  have hlater : ∀ x, TransGen (Corner g.system.rules) x x →
      ∃ z, TransGen (Corner g.system.rules) z z ∧ x.index < z.index := by
    intro x hx
    obtain ⟨z, γ, hrule, hback⟩ := hp.seeded hnil x hx
    have hcorner : TransGen (Corner g.system.rules) x z :=
      (hp.sound.original _ hrule (hnone x)).corner (α := []) (by simp) (hnone z)
    have hmem := SymbolTable.mem_nonterminals_iff.mpr (hkind x hx)
    exact ⟨z, .trans_right hback hcorner, hp.ordered x hmem z γ hrule (hnone z) hback⟩
  -- Left-recursive symbols would have indices beyond every bound.
  have hbeyond : ∀ n, ∃ x, TransGen (Corner g.system.rules) x x ∧ n ≤ x.index := by
    intro n
    induction n with
    | zero => exact ⟨a, ha, Nat.zero_le _⟩
    | succ n ih =>
        obtain ⟨x, hx, hle⟩ := ih
        obtain ⟨z, hz, hlt⟩ := hlater x hx
        exact ⟨z, hz, Nat.lt_of_le_of_lt hle hlt⟩
  obtain ⟨x, hx, hle⟩ := hbeyond g.symbols.size
  have hlt := (SymbolTable.lt_of_contains (SymbolTable.contains_of_kind? (hkind x hx))).2
  exact Nat.lt_irrefl _ (Nat.lt_of_lt_of_le hlt hle)

end Run

end TopDown.Transform.Elimination
