import TopDown.Proofs.Transform.Tracking
import TopDown.Transform.Factoring

/-!
# The steps of left-factoring

* `commonOfAll_prefix`, `prefix_commonOfAll`: the shared beginning is a prefix of every alternative
  that is merged, and the longest one; `mem_ends_iff` says what is behind it.
* `mem_rulesOf_merge_iff`: the rules after a merge, in terms of the rules before it;
  `exists_end_of_member`: what becomes of an alternative that is merged.
* `meets_factorAll`: an invariant that is indexed by the queue holds at the end of a run if each
  turn carries it on; `meets_factorAll_of_merge` is the case where it does not depend on the queue.
* `tracks_factorAll`: the whole run keeps track of the grammar.
* `factorWithin` is a run that is cut off, for computing; `leftFactor_of_within` is what it tells.
* `exists_of_result_eq_ok`, `exists_tracks_of_ok`: what a successful run commits.
-/

namespace TopDown.Transform.Factoring

variable {a head helper : Symbol} {name : String} {drafts : List Draft} {r : Rule}

/-! ## The shared beginning -/

theorem common_prefix (u v : List Symbol) : common u v <+: u ∧ common u v <+: v := by
  induction u generalizing v with
  | nil => exact ⟨List.nil_prefix, List.nil_prefix⟩
  | cons a u ih =>
      cases v with
      | nil => exact ⟨List.nil_prefix, List.nil_prefix⟩
      | cons b v =>
          unfold common
          split
          · rename_i heq
            obtain ⟨hu, hv⟩ := ih v
            exact ⟨(List.prefix_cons_inj a).mpr hu, heq ▸ (List.prefix_cons_inj a).mpr hv⟩
          · exact ⟨List.nil_prefix, List.nil_prefix⟩

theorem foldl_common_prefix (u : List Symbol) (us : List (List Symbol)) :
    us.foldl common u <+: u ∧ ∀ v ∈ us, us.foldl common u <+: v := by
  induction us generalizing u with
  | nil => exact ⟨List.prefix_rfl, by simp⟩
  | cons v us ih =>
      obtain ⟨hfold, hall⟩ := ih (common u v)
      obtain ⟨hu, hv⟩ := common_prefix u v
      refine ⟨hfold.trans hu, ?_⟩
      intro w hw
      rcases List.mem_cons.mp hw with rfl | hw
      · exact hfold.trans hv
      · exact hall w hw

theorem commonOfAll_prefix {u : List Symbol} {us : List (List Symbol)} (h : u ∈ us) :
    commonOfAll us <+: u := by
  cases us with
  | nil => cases h
  | cons v us =>
      obtain ⟨hv, hall⟩ := foldl_common_prefix v us
      rcases List.mem_cons.mp h with rfl | h
      · exact hv
      · exact hall u h

/-- The common beginning of two lists is the longest one. -/
theorem prefix_common_iff {u v w : List Symbol} : w <+: common u v ↔ w <+: u ∧ w <+: v := by
  constructor
  · obtain ⟨hu, hv⟩ := common_prefix u v
    exact fun h => ⟨h.trans hu, h.trans hv⟩
  · rintro ⟨⟨u, rfl⟩, v, rfl⟩
    induction w with
    | nil => exact List.nil_prefix
    | cons a w ih =>
        rw [List.cons_append, List.cons_append, common, if_pos rfl]
        exact (List.prefix_cons_inj a).mpr ih

theorem prefix_foldl_common {u w : List Symbol} {us : List (List Symbol)} (hu : w <+: u)
    (hus : ∀ v ∈ us, w <+: v) : w <+: us.foldl common u := by
  induction us generalizing u with
  | nil => exact hu
  | cons v us ih =>
      exact ih (prefix_common_iff.mpr ⟨hu, hus v List.mem_cons_self⟩) fun w hw =>
        hus w (List.mem_cons_of_mem _ hw)

/-- No longer beginning is shared by all. -/
theorem prefix_commonOfAll {w : List Symbol} {us : List (List Symbol)} (hne : us ≠ [])
    (hus : ∀ u ∈ us, w <+: u) : w <+: commonOfAll us := by
  obtain ⟨u, us, rfl⟩ := List.exists_cons_of_ne_nil hne
  exact prefix_foldl_common (hus u List.mem_cons_self) fun v hv =>
    hus v (List.mem_cons_of_mem _ hv)

theorem head?_commonOfAll {s : Symbol} {us : List (List Symbol)} (hne : us ≠ [])
    (hus : ∀ u ∈ us, u.head? = some s) : (commonOfAll us).head? = some s := by
  have hshared : [s] <+: commonOfAll us := by
    refine prefix_commonOfAll hne fun u hu => ?_
    obtain ⟨γ, rfl⟩ := List.head?_eq_some_iff.mp (hus u hu)
    exact ⟨γ, rfl⟩
  obtain ⟨γ, hγ⟩ := hshared
  rw [← hγ]
  rfl

/-! ## Rules after a merge -/

theorem isMember_iff {d : Draft} :
    isMember a head d = true ↔ d.lhs = a ∧ ∃ γ, d.rhs = head :: γ := by
  rw [isMember, Bool.and_eq_true, decide_eq_true_eq, decide_eq_true_eq, List.head?_eq_some_iff]

theorem mem_mergeInto_iff {fits : Draft → Bool} {merged : Draft → Draft} {d : Draft} :
    d ∈ mergeInto fits merged drafts ↔
      (d ∈ drafts ∧ fits d = false) ∨ ∃ c, drafts.find? fits = some c ∧ d = merged c := by
  induction drafts with
  | nil => simp [mergeInto]
  | cons e drafts ih =>
      cases he : fits e with
      | true =>
          rw [mergeInto, if_pos he, List.find?_cons_of_pos he, List.mem_cons, List.mem_filter,
            List.mem_cons]
          constructor
          · rintro (rfl | ⟨hd, hfit⟩)
            · exact Or.inr ⟨e, rfl, rfl⟩
            · exact Or.inl ⟨Or.inr hd, by simpa using hfit⟩
          · rintro (⟨rfl | hd, hfit⟩ | ⟨c, hc, rfl⟩)
            · rw [he] at hfit
              cases hfit
            · exact Or.inr ⟨hd, by simpa using hfit⟩
            · cases hc
              exact Or.inl rfl
      | false =>
          have hne : ¬fits e = true := by rw [he]; exact Bool.false_ne_true
          rw [mergeInto, if_neg hne, List.find?_cons_of_neg hne, List.mem_cons, List.mem_cons, ih]
          constructor
          · rintro (rfl | ⟨hd, hfit⟩ | hc)
            · exact Or.inl ⟨Or.inl rfl, he⟩
            · exact Or.inl ⟨Or.inr hd, hfit⟩
            · exact Or.inr hc
          · rintro (⟨rfl | hd, hfit⟩ | hc)
            · exact Or.inl rfl
            · exact Or.inr (Or.inl ⟨hd, hfit⟩)
            · exact Or.inr (Or.inr hc)

/-- The first symbol of the shared beginning is the symbol that is shared. -/
theorem head?_beginning (h : drafts.any (isMember a head)) :
    (beginning a head drafts).head? = some head := by
  obtain ⟨d, hd, hmember⟩ := List.any_eq_true.mp h
  refine head?_commonOfAll (List.ne_nil_of_mem
    (List.mem_map_of_mem (List.mem_filter.mpr ⟨hd, hmember⟩))) fun u hu => ?_
  obtain ⟨e, he, rfl⟩ := List.mem_map.mp hu
  exact List.head?_eq_some_iff.mpr (isMember_iff.mp (List.mem_filter.mp he).2).2

/-- What the alternatives that are merged have behind their shared beginning. -/
def ends (a head : Symbol) (drafts : List Draft) : List (List Symbol) :=
  (members a head drafts).map (·.rhs.drop (beginning a head drafts).length)

theorem merge_eq (a head helper : Symbol) (name : String) (drafts : List Draft) :
    merge a head helper name drafts = mergeInto (isMember a head)
      (fun d => { label := d.label, lhs := a, rhs := beginning a head drafts ++ [helper] })
        drafts ++
      helperDrafts helper name (ends a head drafts) := rfl

theorem beginning_append_drop {d : Draft} (hd : d ∈ members a head drafts) :
    beginning a head drafts ++ d.rhs.drop (beginning a head drafts).length = d.rhs := by
  have hshared : beginning a head drafts <+: d.rhs :=
    commonOfAll_prefix (List.mem_map_of_mem hd)
  exact List.prefix_iff_eq_append.mp hshared

theorem exists_member_of_mem_ends {δ : List Symbol} (h : δ ∈ ends a head drafts) :
    ∃ d ∈ members a head drafts, d.rhs = beginning a head drafts ++ δ := by
  obtain ⟨d, hd, rfl⟩ := List.mem_map.mp h
  exact ⟨d, hd, (beginning_append_drop hd).symm⟩

/-- The ends are what follows the shared beginning in alternatives that start with the symbol. -/
theorem mem_ends_iff {δ : List Symbol} : δ ∈ ends a head drafts ↔
    ⟨a, beginning a head drafts ++ δ⟩ ∈ rulesOf drafts ∧
      ∃ γ, beginning a head drafts ++ δ = head :: γ := by
  constructor
  · intro h
    obtain ⟨d, hd, hrhs⟩ := exists_member_of_mem_ends h
    obtain ⟨hmem, hmember⟩ := List.mem_filter.mp hd
    obtain ⟨rfl, hhead⟩ := isMember_iff.mp hmember
    rw [← hrhs]
    exact ⟨mem_rulesOf hmem, hhead⟩
  · rintro ⟨hrule, hhead⟩
    obtain ⟨d, hd, heq⟩ := mem_rulesOf_iff.mp hrule
    have hrhs : d.rhs = beginning a head drafts ++ δ := congrArg Rule.rhs heq
    have hmember := isMember_iff.mpr ⟨congrArg Rule.lhs heq, hrhs ▸ hhead⟩
    exact List.mem_map.mpr ⟨d, List.mem_filter.mpr ⟨hd, hmember⟩, by rw [hrhs, List.drop_left]⟩

/-- A symbol that the merged alternatives do not have is in nothing that a merge makes of them. -/
theorem not_mem_of_members {b : Symbol} (hany : drafts.any (isMember a head) = true)
    (h : ∀ d ∈ members a head drafts, b ∉ d.rhs) :
    b ∉ beginning a head drafts ∧ ∀ δ ∈ ends a head drafts, b ∉ δ := by
  constructor
  · obtain ⟨d, hd, hmember⟩ := List.any_eq_true.mp hany
    have hd := List.mem_filter.mpr ⟨hd, hmember⟩
    have hnot := h d hd
    rw [← beginning_append_drop hd] at hnot
    exact fun hb => hnot (List.mem_append_left _ hb)
  · intro δ hδ hb
    obtain ⟨d, hd, hrhs⟩ := exists_member_of_mem_ends hδ
    have hnot := h d hd
    rw [hrhs] at hnot
    exact hnot (List.mem_append_right _ hb)

/-- A symbol without alternatives is not the nonterminal that is merged. -/
theorem ne_of_fresh (hany : drafts.any (isMember a head) = true)
    (hfresh : ∀ r ∈ rulesOf drafts, r.lhs ≠ helper) : a ≠ helper := by
  obtain ⟨d, hd, hmember⟩ := List.any_eq_true.mp hany
  rw [← (isMember_iff.mp hmember).1]
  exact hfresh _ (mem_rulesOf hd)

theorem mem_rulesOf_merge_iff (h : drafts.any (isMember a head)) :
    r ∈ rulesOf (merge a head helper name drafts) ↔
      ((r ∈ rulesOf drafts ∧ ¬(r.lhs = a ∧ ∃ γ, r.rhs = head :: γ)) ∨
        r = ⟨a, beginning a head drafts ++ [helper]⟩) ∨
      ∃ δ, (⟨a, beginning a head drafts ++ δ⟩ ∈ rulesOf drafts ∧
        ∃ γ, beginning a head drafts ++ δ = head :: γ) ∧ r = ⟨helper, δ⟩ := by
  rw [merge, rulesOf_append, List.mem_append, mem_rulesOf_helperDrafts_iff]
  refine or_congr ?_ (exists_congr fun δ => and_congr_left' mem_ends_iff)
  simp only [mem_rulesOf_iff, mem_mergeInto_iff]
  constructor
  · rintro ⟨d, ⟨hd, hfit⟩ | ⟨c, hc, rfl⟩, rfl⟩
    · refine Or.inl ⟨⟨d, hd, rfl⟩, fun hmember => ?_⟩
      rw [isMember_iff.mpr hmember] at hfit
      cases hfit
    · exact Or.inr rfl
  · rintro (⟨⟨d, hd, rfl⟩, hmember⟩ | rfl)
    · refine ⟨d, Or.inl ⟨hd, ?_⟩, rfl⟩
      rw [← Bool.not_eq_true]
      exact fun hfit => hmember (isMember_iff.mp hfit)
    · obtain ⟨c, hc⟩ := Option.isSome_iff_exists.mp (List.find?_isSome.mpr (List.any_eq_true.mp h))
      exact ⟨_, Or.inr ⟨c, hc, rfl⟩, rfl⟩

variable (helper name) in
/-- An alternative that is merged falls apart into the shared beginning and an alternative of the
helper. -/
theorem exists_end_of_member (hr : r ∈ rulesOf drafts) (hlhs : r.lhs = a)
    (hhead : ∃ γ, r.rhs = head :: γ) : ∃ δ, r.rhs = beginning a head drafts ++ δ ∧
      ⟨a, beginning a head drafts ++ [helper]⟩ ∈ rulesOf (merge a head helper name drafts) ∧
      ⟨helper, δ⟩ ∈ rulesOf (merge a head helper name drafts) := by
  obtain ⟨d, hd, rfl⟩ := mem_rulesOf_iff.mp hr
  have hmember := isMember_iff.mpr ⟨hlhs, hhead⟩
  have hany : drafts.any (isMember a head) = true := List.any_eq_true.mpr ⟨d, hd, hmember⟩
  have hmem := List.mem_filter.mpr ⟨hd, hmember⟩
  have hend : d.rhs.drop (beginning a head drafts).length ∈ ends a head drafts :=
    List.mem_map.mpr ⟨d, hmem, rfl⟩
  exact ⟨_, (beginning_append_drop hmem).symm,
    (mem_rulesOf_merge_iff hany).mpr (Or.inl (Or.inr rfl)),
    (mem_rulesOf_merge_iff hany).mpr (Or.inr ⟨_, mem_ends_iff.mp hend, rfl⟩)⟩

theorem originsOf_mergeInto_sublist {fits : Draft → Bool} {merged : Draft → Draft}
    (hmerged : ∀ d, (merged d).origin = none) (drafts : List Draft) :
    (originsOf (mergeInto fits merged drafts)).Sublist (originsOf drafts) := by
  induction drafts with
  | nil => exact List.Sublist.refl _
  | cons d drafts ih =>
      have hcons : ∀ (e : Draft) (es : List Draft),
          originsOf (e :: es) = e.origin.toList ++ originsOf es := by
        intro e es
        rw [← originsOf_singleton, ← originsOf_append, List.singleton_append]
      have hfilter : (originsOf (drafts.filter (!fits ·))).Sublist (originsOf drafts) :=
        List.filter_sublist.filterMap _
      unfold mergeInto
      split
      · rw [hcons, hcons, hmerged]
        exact hfilter.trans (List.sublist_append_right _ _)
      · rw [hcons, hcons]
        exact ih.append_left _

theorem originsOf_merge_sublist :
    (originsOf (merge a head helper name drafts)).Sublist (originsOf drafts) := by
  rw [merge, originsOf_append, originsOf_helperDrafts, List.append_nil]
  exact originsOf_mergeInto_sublist (fun _ => rfl) drafts

/-! ## The run -/

variable {options : Options} {p : Progress} {I : Progress → Prop} {E : Failure → Prop}

/-- A merge submits the same drafts whatever the limit is. -/
theorem exists_step_eq (options : Options) (a head : Symbol) (p : Progress) :
    let issued := p.introduce options a
    ∃ journal, ∀ limit,
      step { options with limit } a head (prepare { options with limit } a head p) =
        { issued.2 with journal }.submit { options with limit } a
          (merge a head issued.1 (issued.2.name issued.1) p.drafts) := by
  intro issued
  refine ⟨(prepare options a head p).2.journal, fun limit => ?_⟩
  unfold step prepare
  dsimp only
  rw [Progress.noteAll_eq]
  rfl

/-- A merge issues a helper and replaces the drafts; then the limit may be passed. -/
theorem meets_step
    (merged : ∀ journal,
      let issued := p.introduce options a
      let q := { issued.2 with
        drafts := merge a head issued.1 (issued.2.name issued.1) p.drafts
        changed := true
        journal }
      I q ∧ E ⟨q, .tooManyProductions options.limit (q.name a)⟩) :
    Meets I E (step options a head (prepare options a head p)) := by
  obtain ⟨journal, heq⟩ := exists_step_eq options a head p
  obtain ⟨hI, hE⟩ := merged journal
  rw [heq options.limit]
  exact Meets.of_submit hI hE

section Turns

variable {queue : List Symbol}

theorem factorAll_nil : factorAll options p [] = .ok p := by rw [factorAll]

theorem factorAll_of_done (h : sharedHead? a p.drafts = none) :
    factorAll options p (a :: queue) = factorAll options p queue := by
  rw [factorAll]
  split
  · rfl
  · rename_i hsome
    rw [h] at hsome
    cases hsome

theorem factorAll_of_shared (h : sharedHead? a p.drafts = some head) :
    factorAll options p (a :: queue) =
      step options a head (prepare options a head p) >>= fun q =>
        factorAll options q (a :: queue ++ [(p.introduce options a).1]) := by
  rw [factorAll]
  split
  · rename_i hnone
    rw [h] at hnone
    cases hnone
  · rename_i head' hsome
    cases h.symm.trans hsome
    dsimp only
    split
    · rename_i hfail
      rw [hfail]
      rfl
    · rename_i hok
      rw [hok]
      rfl

/-- Factoring from a queue, cut off after a number of turns. It is defined by recursion on that
number, so a run on given data can be computed in a proof. -/
def factorWithin (options : Options) : Nat → Progress → List Symbol →
    Option (Except Failure Progress)
  | _, p, [] => some (.ok p)
  | 0, _, _ :: _ => none
  | turns + 1, p, a :: queue =>
    match sharedHead? a p.drafts with
    | none => factorWithin options turns p queue
    | some head =>
      let prepared := prepare options a head p
      match step options a head prepared with
      | .error failure => some (.error failure)
      | .ok p => factorWithin options turns p (a :: queue ++ [prepared.1])

/-- A run that is not cut off is the run of factoring. -/
theorem factorAll_of_within {n : Nat} {result : Except Failure Progress}
    (h : factorWithin options n p queue = some result) :
    factorAll options p queue = result := by
  induction n generalizing p queue with
  | zero =>
      cases queue with
      | nil => exact factorAll_nil.trans (Option.some.inj h)
      | cons a queue => cases h
  | succ n ih =>
      cases queue with
      | nil => exact factorAll_nil.trans (Option.some.inj h)
      | cons a queue =>
          cases hshared : sharedHead? a p.drafts with
          | none =>
              simp only [factorWithin, hshared] at h
              rw [factorAll_of_done hshared]
              exact ih h
          | some head =>
              simp only [factorWithin, hshared] at h
              rw [factorAll_of_shared hshared]
              cases hstep : step options a head (prepare options a head p) with
              | error failure =>
                  rw [hstep] at h
                  exact Option.some.inj h
              | ok q =>
                  rw [hstep] at h
                  exact ih h

end Turns

/-- Factoring from a queue: a nonterminal in front is done, or it is merged once and the helper
joins the queue at its end. -/
theorem meets_factorAll {K : List Symbol → Progress → Prop}
    (done : ∀ a queue p, K (a :: queue) p → sharedHead? a p.drafts = none → K queue p)
    (merged : ∀ a queue p head, K (a :: queue) p → sharedHead? a p.drafts = some head →
      Meets (K (a :: queue ++ [(p.introduce options a).1])) E
        (step options a head (prepare options a head p)))
    {queue : List Symbol} (hp : K queue p) : Meets (K []) E (factorAll options p queue) := by
  fun_induction factorAll options p queue with
  | case1 p => exact hp
  | case2 p a queue hshared ih => exact ih (done a queue p hp hshared)
  | case3 p a queue head hshared prepared failure hfail =>
      have hstep := merged a queue p head hp hshared
      rw [hfail] at hstep
      exact hstep
  | case4 p a queue head hshared prepared q hq ih =>
      have hstep := merged a queue p head hp hshared
      rw [hq] at hstep
      exact ih hstep

/-- What every merge keeps is kept by a run, wherever it ends. -/
theorem meets_factorAll_of_merge
    (merged : ∀ a p head, I p → sharedHead? a p.drafts = some head → ∀ journal,
      let issued := p.introduce options a
      I { issued.2 with
        drafts := merge a head issued.1 (issued.2.name issued.1) p.drafts
        changed := true
        journal })
    (hp : I p) (queue : List Symbol) : Meets I (I ·.progress) (factorAll options p queue) := by
  refine meets_factorAll (K := fun _ p => I p) (fun _ _ _ hp _ => hp) ?_ hp
  intro a queue p head hp hshared
  exact meets_step fun journal => ⟨merged a p head hp hshared journal,
    merged a p head hp hshared journal⟩

/-! ## The run keeps track of the grammar -/

section Tracks

variable {g : Grammar}

theorem tracks_merge (h : p.Tracks g) (hshared : sharedHead? a p.drafts = some head)
    (journal : Array Event) :
    let issued := p.introduce options a
    { issued.2 with
      drafts := merge a head issued.1 (issued.2.name issued.1) p.drafts
      changed := true
      journal }.Tracks g := by
  intro issued
  have hany := any_isMember_of_sharedHead? hshared
  have hadmits : ∀ r ∈ rulesOf p.drafts, issued.2.grammar.Admits r := fun r hr =>
    Progress.Tracks.admits_introduce (forall_mem_rulesOf_iff.mpr h.admits r hr)
  have hhelper : issued.2.grammar.symbols.kind? issued.1 = some .nonterminal :=
    Progress.kind?_introduce ..
  refine ((h.introduce ?_ originsOf_merge_sublist).journal journal)
  refine forall_mem_rulesOf_iff.mp fun r hr => ?_
  rcases (mem_rulesOf_merge_iff hany).mp hr with (⟨hr, -⟩ | rfl) | ⟨δ, ⟨hδ, -⟩, rfl⟩
  · exact hadmits r hr
  · obtain ⟨d, hd, hmember⟩ := List.any_eq_true.mp hany
    obtain ⟨γ, hγ⟩ := commonOfAll_prefix
      (List.mem_map_of_mem (f := (·.rhs)) (List.mem_filter.mpr ⟨hd, hmember⟩))
    obtain ⟨hlhs, hrhs⟩ := hadmits _ (mem_rulesOf hd)
    have ha := (isMember_iff.mp hmember).1
    refine ⟨(congrArg _ ha.symm).trans hlhs, fun s hs => ?_⟩
    rcases List.mem_append.mp hs with hs | hs
    · refine hrhs s ?_
      show s ∈ d.rhs
      rw [← hγ]
      exact List.mem_append_left _ hs
    · rw [List.mem_singleton.mp hs]
      exact SymbolTable.contains_of_kind? hhelper
  · exact ⟨hhelper, fun s hs => (hadmits _ hδ).2 s (List.mem_append_right _ hs)⟩

variable (options) in
theorem tracks_factorAll (h : p.Tracks g) (queue : List Symbol) :
    Meets (·.Tracks g) (·.progress.Tracks g) (factorAll options p queue) :=
  meets_factorAll_of_merge (fun _ _ _ hp hshared => tracks_merge hp hshared) h queue

/-- What is seen of left-factoring after some turns is what it does, if they are enough. -/
theorem leftFactor_of_within {α : Type} {f : Outcome → α} {x : α} {n : Nat}
    (h : (factorWithin options n (.start g #[]) g.symbols.nonterminals).map
      (fun result => f (result.casesOn Failure.abort Progress.commit)) = some x) :
    f (g.leftFactor options) = x := by
  obtain ⟨result, hresult, rfl⟩ := Option.map_eq_some_iff.mp h
  rw [Grammar.leftFactor, factorAll_of_within hresult]
  cases result <;> rfl

/-- Left-factoring that succeeds commits the progress it arrived at. -/
theorem exists_of_result_eq_ok {helpers : List Symbol}
    (hok : (g.leftFactor options).result = .ok helpers) :
    ∃ p, factorAll options (.start g #[]) g.symbols.nonterminals = .ok p ∧
      g.leftFactor options = p.commit := by
  unfold Grammar.leftFactor at hok ⊢
  split at hok
  · cases hok
  · rename_i p hp
    exact ⟨p, hp, rfl⟩

/-- What it commits keeps track of the grammar and has the helpers that are returned. -/
theorem exists_tracks_of_ok (hg : g.WellFormed) {helpers : List Symbol}
    (hok : (g.leftFactor options).result = .ok helpers) :
    ∃ p, factorAll options (.start g #[]) g.symbols.nonterminals = .ok p ∧ p.Tracks g ∧
      p.helpers = helpers ∧ g.leftFactor options = p.commit := by
  obtain ⟨p, hp, heq⟩ := exists_of_result_eq_ok hok
  have htracks := tracks_factorAll options (.start hg #[]) g.symbols.nonterminals
  rw [hp] at htracks
  refine ⟨p, hp, htracks, ?_, heq⟩
  rw [heq, (Progress.Tracks.commit_eq htracks hg).1] at hok
  exact Except.ok.inj hok

end Tracks

end TopDown.Transform.Factoring
