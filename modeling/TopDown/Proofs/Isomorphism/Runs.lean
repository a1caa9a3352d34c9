import TopDown.Proofs.Isomorphism.Drafts
import TopDown.Proofs.Transform.FreshName

/-!
# Two runs abreast

Two grammars with the same rules but for their symbols are transformed under the same limit. The
two runs take the same steps: they substitute, turn around and merge at the same places, issue
their helpers at the same time, and pass the limit in the same step or not at all.

* `Coupled R g h`: the relation `R` pairs the symbols of the grammars, and those that each is going
  to issue.
* `Abreast` is the invariant of the two runs. If `named` holds, the names are the same on both
  sides too, and so are the fresh names (`Abreast.introduce`).
* `Paired` is the guarantee about two steps; it composes along binds and folds.
* `paired_treatAll`, `paired_factorAll`: the runs of the two transformations.
-/

namespace TopDown

namespace SymbolTable

variable {table table' : SymbolTable}

/-- A fresh name depends on the names that are taken and on nothing else. -/
theorem freshName_congr (h : ∀ name, table.isNameTaken name = table'.isNameTaken name)
    (base suffix : String) : table.freshName base suffix = table'.freshName base suffix := by
  have hnumber : ∀ name, table.isNameTaken name = true →
      table.freeNumber? name = table'.freeNumber? name := by
    intro name htaken
    obtain ⟨n, hn, -⟩ := freeNumber?_of_isNameTaken htaken
    rw [h] at htaken
    obtain ⟨m, hm, -⟩ := freeNumber?_of_isNameTaken htaken
    have hleast := isLeast_of_freeNumber? hn
    simp only [h] at hleast
    rw [hn, hm, hleast.unique (isLeast_of_freeNumber? hm)]
  unfold freshName
  dsimp only
  rw [← h]
  split
  · rename_i htaken
    rw [hnumber _ htaken]
  · rfl

end SymbolTable

namespace Transform

open Relator

/-! ## The same cause -/

/-- Two failures have the same cause, and the same limit where it is the limit; the names they
report may differ. Refusals are left out, as no list of drafts is refused. -/
inductive Error.SameCause : Error → Error → Prop
  | cycle (name name' : String) : SameCause (.cycle name) (.cycle name')
  | hiddenLeftRecursion (name name' label label' : String) :
      SameCause (.hiddenLeftRecursion name label) (.hiddenLeftRecursion name' label')
  | tooManyProductions (limit : Nat) (name name' : String) :
      SameCause (.tooManyProductions limit name) (.tooManyProductions limit name')
  | notConverged (label label' : String) : SameCause (.notConverged label) (.notConverged label')

/-- Two failures have the same cause; if `named` holds, they report it in the same words. -/
def Error.Match (named : Prop) (error error' : Error) : Prop :=
  error.SameCause error' ∧ (named → error = error')

/-! ## Two steps -/

/-- A guarantee about two steps that end alike. -/
def Paired (I : Progress → Progress → Prop) (named : Prop) :
    Except Failure Progress → Except Failure Progress → Prop
  | .ok p, .ok p' => I p p'
  | .error f, .error f' => f.error.Match named f'.error
  | _, _ => False

namespace Paired

variable {I J : Progress → Progress → Prop} {named : Prop} {x x' : Except Failure Progress}

theorem bind {f f' : Progress → Except Failure Progress} (h : Paired J named x x')
    (hf : ∀ p p', J p p' → Paired I named (f p) (f' p')) :
    Paired I named (x >>= f) (x' >>= f') := by
  cases x with
  | ok p =>
      cases x' with
      | ok p' => exact hf p p' h
      | error f' => exact h.elim
  | error f =>
      cases x' with
      | ok p' => exact h.elim
      | error f' => exact h

/-- Lists of drafts of one length pass the limit together. -/
theorem submit {p p' : Progress} {options options' : Options} {a a' : Symbol}
    {drafts drafts' : List Draft} (hlimit : options.limit = options'.limit)
    (hlength : drafts.length = drafts'.length) (hname : named → p.name a = p'.name a')
    (hI : I { p with drafts, changed := true } { p' with drafts := drafts', changed := true }) :
    Paired I named (p.submit options a drafts) (p'.submit options' a' drafts') := by
  unfold Progress.submit
  rw [hlimit, hlength]
  split
  · refine ⟨.tooManyProductions _ _ _, fun hn => ?_⟩
    exact congrArg (Error.tooManyProductions options'.limit) (hname hn)
  · exact hI

end Paired

/-! ## The two runs -/

/-- A one-to-one relation that pairs the symbols of two grammars with the same rules, and the
symbols that each of them is going to issue. -/
structure Coupled (R : Symbol → Symbol → Prop) (g h : Grammar) : Prop where
  renames : Renames R g.system.rules h.system.rules
  left : ∀ s, g.symbols.contains s = true → ∃ s', R s s'
  right : ∀ s', h.symbols.contains s' = true → ∃ s, R s s'
  live : ∀ s s', R s s' → (g.symbols.contains s = true ↔ h.symbols.contains s' = true)
  nonterminals : List.Forall₂ R g.symbols.nonterminals h.symbols.nonterminals
  next : ∀ k, R ⟨g.id, g.symbols.size + k⟩ ⟨h.id, h.symbols.size + k⟩

/-- Two transformations under way that have done the same so far. -/
structure Abreast (R : Symbol → Symbol → Prop) (O : Production.Id → Production.Id → Prop)
    (named : Prop) (g h : Grammar) (p p' : Progress) : Prop where
  tracks : p.Tracks g
  tracks' : p'.Tracks h
  drafts : List.Forall₂ (Draft.Match R O named) p.drafts p'.drafts
  helpers : List.Forall₂ R p.helpers p'.helpers
  names : named → ∀ s s', R s s' →
    p.grammar.symbols.name? s = p'.grammar.symbols.name? s'

theorem Progress.Tracks.contains_lhs {g : Grammar} {p : Progress} (h : p.Tracks g) {r : Rule}
    (hr : r ∈ rulesOf p.drafts) : p.grammar.symbols.contains r.lhs = true :=
  SymbolTable.contains_of_kind? (forall_mem_rulesOf_iff.mpr h.admits r hr).1

namespace Abreast

variable {R : Symbol → Symbol → Prop} {O : Production.Id → Production.Id → Prop} {named : Prop}
  {g h : Grammar} {p p' : Progress} {options options' : Options} {a a' s s' : Symbol}

theorem journal (hp : Abreast R O named g h p p') (journal journal' : Array Event) :
    Abreast R O named g h { p with journal } { p' with journal := journal' } :=
  ⟨hp.tracks.journal journal, hp.tracks'.journal journal', hp.drafts, hp.helpers, hp.names⟩

variable (hc : Coupled R g h) (hp : Abreast R O named g h p p')
include hc hp

/-- Related symbols are live on both sides or on neither. -/
theorem live (hs : R s s') :
    p.grammar.symbols.contains s = true ↔ p'.grammar.symbols.contains s' = true := by
  have hmem : s ∈ p.helpers ↔ s' ∈ p'.helpers := List.rel_mem hc.renames.unique hs hp.helpers
  rw [hp.tracks.contains_iff, hp.tracks'.contains_iff, hc.live s s' hs, hmem]

theorem exists_right (hs : p.grammar.symbols.contains s = true) : ∃ s', R s s' := by
  rcases hp.tracks.contains_iff.mp hs with hs | hs
  · exact hc.left s hs
  · obtain ⟨s', -, hss⟩ := exists_of_forall₂ hp.helpers hs
    exact ⟨s', hss⟩

theorem exists_left (hs : p'.grammar.symbols.contains s' = true) : ∃ s, R s s' := by
  rcases hp.tracks'.contains_iff.mp hs with hs | hs
  · exact hc.right s' hs
  · obtain ⟨s, -, hss⟩ := exists_of_forall₂ (S := flip R) hp.helpers.flip hs
    exact ⟨s, hss⟩

omit hc in
theorem name_eq (hn : named) (hs : R s s') (hlive : p.grammar.symbols.contains s = true) :
    p.name s = p'.name s' := by
  obtain ⟨entry, hentry⟩ := Option.isSome_iff_exists.mp hlive
  have hname : p.grammar.symbols.name? s = some entry.name := by
    rw [SymbolTable.name?, hentry]
    rfl
  rw [Progress.name, Progress.name, Grammar.displayName, Grammar.displayName,
    ← hp.names hn s s' hs, hname]
  rfl

theorem isNameTaken_eq (hn : named) (name : String) :
    p.grammar.symbols.isNameTaken name = p'.grammar.symbols.isNameTaken name := by
  have hlive : ∀ {table : SymbolTable} {s : Symbol}, table.name? s = some name →
      table.contains s = true := by
    intro table s hs
    obtain ⟨entry, hentry, -⟩ := Option.map_eq_some_iff.mp hs
    rw [SymbolTable.contains, hentry]
    rfl
  rw [Bool.eq_iff_iff, SymbolTable.isNameTaken_iff, SymbolTable.isNameTaken_iff]
  constructor
  · rintro ⟨s, hs⟩
    obtain ⟨s', hss⟩ := hp.exists_right hc (hlive hs)
    exact ⟨s', (hp.names hn s s' hss).symm.trans hs⟩
  · rintro ⟨s', hs'⟩
    obtain ⟨s, hss⟩ := hp.exists_left hc (hlive hs')
    exact ⟨s, (hp.names hn s s' hss).trans hs'⟩

/-- **Helpers are issued alike.** They are paired, and where names matter they get the same
name. -/
theorem introduce (hsuffix : named → options.suffix = options'.suffix) (ha : R a a')
    (hlive : p.grammar.symbols.contains a = true) :
    let issued := p.introduce options a
    let issued' := p'.introduce options' a'
    R issued.1 issued'.1 ∧ (named → issued.2.name issued.1 = issued'.2.name issued'.1) ∧
    (named → ∀ s s', R s s' →
      issued.2.grammar.symbols.name? s = issued'.2.grammar.symbols.name? s') := by
  intro issued issued'
  have hissued : R issued.1 issued'.1 := by
    rw [hp.tracks.introduce_eq, hp.tracks'.introduce_eq, ← hp.helpers.length_eq]
    exact hc.next _
  have hfresh : named → issued.2.grammar.symbols.name? issued.1 =
      issued'.2.grammar.symbols.name? issued'.1 := by
    intro hn
    rw [Progress.name?_introduce, Progress.name?_introduce, hp.name_eq hn ha hlive, hsuffix hn]
    exact congrArg some (SymbolTable.freshName_congr (hp.isNameTaken_eq hc hn) _ _)
  refine ⟨hissued, fun hn => ?_, fun hn s s' hs => ?_⟩
  · rw [Progress.name, Progress.name, Grammar.displayName, Grammar.displayName, ← hfresh hn,
      Progress.name?_introduce]
    rfl
  · by_cases hnew : s = issued.1
    · have hnew' : s' = issued'.1 := hc.renames.unique.2 hs (hnew ▸ hissued)
      rw [hnew, hnew', hfresh hn]
    · have hnew' : s' ≠ issued'.1 := fun heq => hnew (hc.renames.unique.1 hs (heq ▸ hissued))
      rw [Progress.name?_introduce_of_ne hnew, Progress.name?_introduce_of_ne hnew',
        hp.names hn s s' hs]

end Abreast

section Steps

variable {R : Symbol → Symbol → Prop} {O : Production.Id → Production.Id → Prop} {named : Prop}
  {g h : Grammar} {p p' : Progress} {options options' : Options} {a a' b b' : Symbol}
  (hc : Coupled R g h) (hlimit : options.limit = options'.limit)
include hc hlimit

/-- Helpers are issued on both sides, and the drafts change with them; then the limit may be
passed. -/
theorem paired_introduce (hsuffix : named → options.suffix = options'.suffix)
    (hp : Abreast R O named g h p p') (ha : R a a') (hlive : p.grammar.symbols.contains a = true)
    {drafts drafts' : List Draft} {journal journal' : Array Event}
    (htracks : { (p.introduce options a).2 with drafts, changed := true, journal }.Tracks g)
    (htracks' : { (p'.introduce options' a').2 with
      drafts := drafts', changed := true, journal := journal' }.Tracks h)
    (hdrafts : List.Forall₂ (Draft.Match R O named) drafts drafts') :
    Paired (Abreast R O named g h) named
      ({ (p.introduce options a).2 with journal }.submit options a drafts)
      ({ (p'.introduce options' a').2 with journal := journal' }.submit options' a' drafts') := by
  obtain ⟨hissued, -, hnames⟩ := hp.introduce hc hsuffix ha hlive
  have hnext : Abreast R O named g h _ _ :=
    ⟨htracks, htracks', hdrafts, List.rel_append hp.helpers (.cons hissued .nil), hnames⟩
  refine Paired.submit hlimit hdrafts.length_eq (fun hn => hnext.name_eq hn ha ?_) hnext
  exact hnext.tracks.contains_iff.mpr
    ((hp.tracks.contains_iff.mp hlive).imp_right (List.mem_append_left _))

/-! ## Elimination -/

namespace Elimination

variable {corners corners' : SymbolRelation} {earlier earlier' rest rest' : List Symbol}

theorem paired_substituteCorner (hp : Abreast R O named g h p p') (ha : R a a') (hb : R b b')
    (hcorners : corners.holds b a = corners'.holds b' a') :
    Paired (Abreast R O named g h) named (substituteCorner options corners a p b)
      (substituteCorner options' corners' a' p' b') := by
  have hR := hc.renames.unique
  have hany : p.drafts.any (startsWith a b) = p'.drafts.any (startsWith a' b') :=
    any_eq_of_rel hp.drafts fun _ _ hd => startsWith_eq_of_match hR ha hb hd
  have hmatch := match_substitute hR hp.drafts ha hb
  by_cases h : (corners.holds b a && p.drafts.any (startsWith a b)) = true
  · obtain ⟨journal, heq⟩ := exists_substituteCorner_eq options h
    have hlive : p.grammar.symbols.contains a = true := by
      obtain ⟨γ, hγ⟩ := any_startsWith_iff.mp (Bool.and_eq_true _ _ ▸ h).2
      exact hp.tracks.contains_lhs hγ
    rw [hcorners, hany] at h
    obtain ⟨journal', heq'⟩ := exists_substituteCorner_eq options' h
    rw [heq options.limit, heq' options'.limit]
    refine Paired.submit hlimit hmatch.length_eq (fun hn => hp.name_eq hn ha hlive) ?_
    exact ⟨tracks_substitute hp.tracks journal, tracks_substitute hp.tracks' journal', hmatch,
      hp.helpers, hp.names⟩
  · have h' := h
    rw [hcorners, hany] at h'
    rw [substituteCorner, substituteCorner, if_neg h, if_neg h']
    exact hp

variable (hsuffix : named → options.suffix = options'.suffix)
include hsuffix

theorem paired_removeDirect (hp : Abreast R O named g h p p') (ha : R a a') :
    Paired (Abreast R O named g h) named (removeDirect options a p)
      (removeDirect options' a' p') := by
  have hR := hc.renames.unique
  have htails := rel_recursiveTails hR hp.drafts ha
  by_cases hnil : recursiveTails a p.drafts = []
  · rw [hnil] at htails
    rw [removeDirect, removeDirect, hnil, List.forall₂_nil_left_iff.mp htails]
    exact hp
  · obtain ⟨α, hα⟩ := List.exists_mem_of_ne_nil _ hnil
    have hlive := hp.tracks.contains_lhs (mem_recursiveTails_iff.mp hα)
    have hnil' : recursiveTails a' p'.drafts ≠ [] := by
      intro hnil'
      rw [hnil'] at htails
      exact hnil (List.forall₂_nil_right_iff.mp htails)
    have hany : (recursiveTails a p.drafts).any (·.isEmpty) =
        (recursiveTails a' p'.drafts).any (·.isEmpty) :=
      any_eq_of_rel htails fun _ _ => isEmpty_eq_of_rel
    cases hempty : (recursiveTails a p.drafts).any (·.isEmpty) with
    | true =>
        simp only [removeDirect, List.isEmpty_iff, hnil, hnil', ← hany, hempty, if_false, if_true]
        exact ⟨.cycle _ _, fun hn => congrArg Error.cycle (hp.name_eq hn ha hlive)⟩
    | false =>
        obtain ⟨journal, heq⟩ := exists_removeDirect_eq options hnil hempty
        obtain ⟨journal', heq'⟩ := exists_removeDirect_eq options' hnil' (hany ▸ hempty)
        rw [heq options.limit, heq' options'.limit]
        obtain ⟨hissued, hname, -⟩ := hp.introduce hc hsuffix ha hlive
        exact paired_introduce hc hlimit hsuffix hp ha hlive (tracks_turnAround hp.tracks journal)
          (tracks_turnAround hp.tracks' journal') (match_turnAround hR hp.drafts ha hissued hname)

theorem paired_treat (hp : Abreast R O named g h p p') (ha : R a a')
    (hearlier : List.Forall₂ R earlier earlier')
    (hcorners : ∀ s s' t t', R s s' → R t t' → corners.holds s t = corners'.holds s' t') :
    Paired (Abreast R O named g h) named (treat options corners earlier a p)
      (treat options' corners' earlier' a' p') := by
  have hfold : Paired (Abreast R O named g h) named
      (earlier.foldlM (substituteCorner options corners a) p)
      (earlier'.foldlM (substituteCorner options' corners' a') p') := by
    induction hearlier generalizing p p' with
    | nil => exact hp
    | cons hb _ ih =>
        rw [List.foldlM_cons, List.foldlM_cons]
        exact (paired_substituteCorner hc hlimit hp ha hb (hcorners _ _ _ _ hb ha)).bind
          fun q q' hq => ih hq
  exact hfold.bind fun q q' hq => paired_removeDirect hc hlimit hsuffix hq ha

/-- **The eliminations take the same steps.** -/
theorem paired_treatAll (hp : Abreast R O named g h p p')
    (hearlier : List.Forall₂ R earlier earlier') (hrest : List.Forall₂ R rest rest')
    (hcorners : ∀ s s' t t', R s s' → R t t' → corners.holds s t = corners'.holds s' t') :
    Paired (Abreast R O named g h) named (treatAll options corners earlier p rest)
      (treatAll options' corners' earlier' p' rest') := by
  induction hrest generalizing earlier earlier' p p' with
  | nil => exact hp
  | @cons a a' rest rest' ha _ ih =>
      refine (paired_treat hc hlimit hsuffix hp ha hearlier hcorners).bind fun q q' hq => ?_
      exact ih hq (List.rel_append hearlier (.cons ha .nil))

end Elimination

/-! ## Left-factoring -/

namespace Factoring

variable {head : Symbol} {queue queue' : List Symbol}
  (hsuffix : named → options.suffix = options'.suffix)

omit hc hlimit in
theorem contains_of_sharedHead? (hp : p.Tracks g) (hshared : sharedHead? a p.drafts = some head) :
    p.grammar.symbols.contains a = true := by
  obtain ⟨d, hd, hmember⟩ := List.any_eq_true.mp (any_isMember_of_sharedHead? hshared)
  rw [← (isMember_iff.mp hmember).1]
  exact hp.contains_lhs (mem_rulesOf hd)

include hsuffix

/-- Where one side merges, the other merges by the symbol that goes with the first. -/
theorem exists_paired_step (hp : Abreast R O named g h p p') (ha : R a a')
    (hshared : sharedHead? a p.drafts = some head) :
    ∃ head', sharedHead? a' p'.drafts = some head' ∧
      Paired (Abreast R O named g h) named (step options a head (prepare options a head p))
        (step options' a' head' (prepare options' a' head' p')) := by
  have hR := hc.renames.unique
  have hrel := rel_sharedHead? hR hp.drafts ha
  rw [hshared] at hrel
  obtain ⟨head', hshared', hhead⟩ := exists_of_rel_some hrel
  have hlive := contains_of_sharedHead? hp.tracks hshared
  obtain ⟨journal, heq⟩ := exists_step_eq options a head p
  obtain ⟨journal', heq'⟩ := exists_step_eq options' a' head' p'
  obtain ⟨hissued, hname, -⟩ := hp.introduce hc hsuffix ha hlive
  refine ⟨head', hshared', ?_⟩
  rw [heq options.limit, heq' options'.limit]
  exact paired_introduce hc hlimit hsuffix hp ha hlive (tracks_merge hp.tracks hshared journal)
    (tracks_merge hp.tracks' hshared' journal') (match_merge hR hp.drafts ha hhead hissued hname)

/-- **The factorings take the same steps.** -/
theorem paired_factorAll (hp : Abreast R O named g h p p')
    (hqueue : List.Forall₂ R queue queue') :
    Paired (Abreast R O named g h) named (factorAll options p queue)
      (factorAll options' p' queue') := by
  fun_induction factorAll options p queue generalizing p' queue' with
  | case1 p =>
      rw [List.forall₂_nil_left_iff.mp hqueue, factorAll_nil]
      exact hp
  | case2 p a queue hshared ih =>
      obtain ⟨a', queue', ha, hrest, rfl⟩ := List.forall₂_cons_left_iff.mp hqueue
      have hrel := rel_sharedHead? hc.renames.unique hp.drafts ha
      rw [hshared] at hrel
      rw [factorAll_of_done (eq_none_of_rel_none hrel)]
      exact ih hp hrest
  | case3 p a queue head hshared prepared failure =>
      rename_i hfail
      obtain ⟨a', queue', ha, hrest, rfl⟩ := List.forall₂_cons_left_iff.mp hqueue
      obtain ⟨head', hshared', hstep⟩ := exists_paired_step hc hlimit hsuffix hp ha hshared
      rw [factorAll_of_shared hshared']
      rw [hfail] at hstep
      -- One step fails, so the other does: a success beside a failure is no pair.
      cases hstep' : step options' a' head' (prepare options' a' head' p') with
      | ok q' =>
          rw [hstep'] at hstep
          exact hstep.elim
      | error failure' =>
          rw [hstep'] at hstep
          exact hstep
  | case4 p a queue head hshared prepared q hq =>
      rename_i ih
      obtain ⟨a', queue', ha, hrest, rfl⟩ := List.forall₂_cons_left_iff.mp hqueue
      obtain ⟨head', hshared', hstep⟩ := exists_paired_step hc hlimit hsuffix hp ha hshared
      have hissued := (hp.introduce hc hsuffix ha (contains_of_sharedHead? hp.tracks hshared)).1
      rw [factorAll_of_shared hshared']
      rw [hq] at hstep
      cases hstep' : step options' a' head' (prepare options' a' head' p') with
      | ok q' =>
          rw [hstep'] at hstep
          -- The queues stay alike because both put their own helper at the end.
          exact ih hstep (.cons ha (List.rel_append hrest (.cons hissued .nil)))
      | error failure' =>
          rw [hstep'] at hstep
          exact hstep.elim

end Factoring

end Steps

end Transform

end TopDown
