import Mathlib.Data.Multiset.Bind
import Mathlib.Logic.Function.Iterate
import TopDown.Proofs.Factoring.Overlap

/-!
# Unfolding the helpers of left-factoring

A helper stands for the ends of the alternatives that were merged. Each end put in its place, and
this again as long as there are helpers, gives back the alternatives that were there at the start.

* `alternatives` counts the right-hand sides of a nonterminal; `alternatives_merge_self` and
  `alternatives_merge_helper` are those after a merge.
* `unfoldEnds` unfolds the helpers at the end of right-hand sides, all at once, and `Unfolds` one
  of them; `exists_rounds` is the way from the one to the other.
* `unfolds_merge`, `unfolds_merge_of_unfolds`: after a merge, what there was before it is there to
  be unfolded, and so is what unfolded before it.
* `Attached`, `Branching`: a helper occurs once, at the end of an alternative, and its own
  alternatives share no first symbol.
* `unfold_leftFactor`: left-factoring loses and duplicates no alternative.
-/

namespace TopDown

/-! ## The alternatives of a nonterminal -/

/-- The right-hand sides of a nonterminal, each as often as it is an alternative. -/
def alternatives (rules : List Rule) (a : Symbol) : Multiset (List Symbol) :=
  ((rules.filter (·.lhs = a)).map (·.rhs) : List (List Symbol))

section Alternatives

variable {rules rules' : List Rule} {a b : Symbol} {u : List Symbol}

theorem mem_alternatives_iff : u ∈ alternatives rules a ↔ ⟨a, u⟩ ∈ rules := by
  simp only [alternatives, Multiset.mem_coe, List.mem_map, List.mem_filter, decide_eq_true_eq]
  constructor
  · rintro ⟨r, ⟨hr, rfl⟩, rfl⟩
    exact hr
  · exact fun h => ⟨_, ⟨h, rfl⟩, rfl⟩

theorem alternatives_eq_of_perm (h : rules.Perm rules') :
    alternatives rules a = alternatives rules' a :=
  Multiset.coe_eq_coe.mpr ((h.filter _).map _)

theorem alternatives_append :
    alternatives (rules ++ rules') a = alternatives rules a + alternatives rules' a := by
  rw [alternatives, List.filter_append, List.map_append, ← Multiset.coe_add]
  rfl

theorem alternatives_cons_self :
    alternatives (⟨a, u⟩ :: rules) a = u ::ₘ alternatives rules a := by
  rw [alternatives, List.filter_cons_of_pos (by simp)]
  rfl

theorem alternatives_cons_of_ne (h : a ≠ b) :
    alternatives (⟨a, u⟩ :: rules) b = alternatives rules b := by
  rw [alternatives, List.filter_cons_of_neg (by simpa using h)]
  rfl

theorem alternatives_map_self (f : List Symbol → List Symbol) (us : List (List Symbol)) :
    alternatives (us.map (⟨a, f ·⟩)) a = us.map f := by
  rw [alternatives, List.filter_eq_self.mpr, List.map_map]
  · rfl
  · intro r hr
    obtain ⟨u, -, rfl⟩ := List.mem_map.mp hr
    exact decide_eq_true rfl

theorem alternatives_eq_zero (h : ∀ r ∈ rules, r.lhs ≠ a) : alternatives rules a = 0 := by
  rw [alternatives, List.filter_eq_nil_iff.mpr fun r hr => by simpa using h r hr]
  rfl

end Alternatives

/-! ## Unfolding -/

/-- A right-hand side that ends in a helper gives way to one for each alternative of the helper,
which stands in the helper's place. -/
def unfoldEnd (helpers : List Symbol) (rules : List Rule) (u : List Symbol) :
    Multiset (List Symbol) :=
  match u.getLast? with
  | none => {u}
  | some h => if h ∈ helpers then (alternatives rules h).map (u.dropLast ++ ·) else {u}

def unfoldEnds (helpers : List Symbol) (rules : List Rule) (us : Multiset (List Symbol)) :
    Multiset (List Symbol) :=
  us.bind (unfoldEnd helpers rules)

/-- One helper at the end of a right-hand side is unfolded. -/
def Unfolds (helpers : List Symbol) (rules : List Rule) (us us' : Multiset (List Symbol)) : Prop :=
  ∃ u, ∃ h ∈ helpers, ∃ rest, us = (u ++ [h]) ::ₘ rest ∧
    us' = (alternatives rules h).map (u ++ ·) + rest

section Unfolding

open Relation

variable {helpers : List Symbol} {rules : List Rule} {us us' : Multiset (List Symbol)}
  {h : Symbol} {u : List Symbol}

theorem unfoldEnd_concat (hh : h ∈ helpers) :
    unfoldEnd helpers rules (u ++ [h]) = (alternatives rules h).map (u ++ ·) := by
  rw [unfoldEnd, List.getLast?_concat]
  simp only [if_pos hh, List.dropLast_concat]

theorem unfoldEnd_of_forall (hu : ∀ h ∈ helpers, h ∉ u) : unfoldEnd helpers rules u = {u} := by
  unfold unfoldEnd
  split
  · rfl
  · rename_i h hlast
    exact if_neg fun hh => hu h hh (List.mem_of_getLast? hlast)

/-- Without helpers there is nothing to unfold. -/
theorem unfoldEnds_of_forall (hus : ∀ u ∈ us, ∀ h ∈ helpers, h ∉ u) :
    unfoldEnds helpers rules us = us := by
  rw [unfoldEnds, Multiset.bind_congr fun u hu => unfoldEnd_of_forall (hus u hu)]
  exact (Multiset.bind_singleton us id).trans (Multiset.map_id us)

theorem iterate_unfoldEnds_add (n : Nat) : (unfoldEnds helpers rules)^[n] (us + us') =
    (unfoldEnds helpers rules)^[n] us + (unfoldEnds helpers rules)^[n] us' := by
  induction n generalizing us us' with
  | zero => rfl
  | succ n ih =>
      simp only [Function.iterate_succ_apply]
      rw [unfoldEnds, Multiset.add_bind]
      exact ih

/-- What unfolds to right-hand sides without helpers, one helper after the other, does so when
all are unfolded at once, often enough. -/
theorem exists_rounds (hunfolds : ReflTransGen (Unfolds helpers rules) us us')
    (hdone : ∀ u ∈ us', ∀ h ∈ helpers, h ∉ u) :
    ∃ rounds, ∀ n ≥ rounds, (unfoldEnds helpers rules)^[n] us = us' := by
  induction hunfolds using ReflTransGen.head_induction_on with
  | refl => exact ⟨0, fun n _ => Function.iterate_fixed (unfoldEnds_of_forall hdone) n⟩
  | head hstep _ ih =>
      obtain ⟨rounds, hrounds⟩ := ih
      obtain ⟨u, h, hh, rest, rfl, rfl⟩ := hstep
      refine ⟨rounds + 1, fun n hn => ?_⟩
      obtain ⟨n, rfl⟩ := Nat.exists_eq_add_of_le' (Nat.le_of_add_left_le hn)
      have hsum := hrounds n (by omega)
      rw [iterate_unfoldEnds_add] at hsum
      -- The rest is at its end already, one round earlier than the one that was unfolded.
      have hrest : (unfoldEnds helpers rules)^[n + 1] rest =
          (unfoldEnds helpers rules)^[n] rest := by
        rw [Function.iterate_succ_apply']
        refine unfoldEnds_of_forall fun v hv => hdone v ?_
        rw [← hsum]
        exact Multiset.mem_add.mpr (Or.inr hv)
      have hfirst : unfoldEnds helpers rules {u ++ [h]} = (alternatives rules h).map (u ++ ·) := by
        rw [unfoldEnds, Multiset.singleton_bind, unfoldEnd_concat hh]
      rw [← Multiset.singleton_add, iterate_unfoldEnds_add, hrest, Function.iterate_succ_apply,
        hfirst]
      exact hsum

/-- Unfolding works behind a beginning and beside others. -/
theorem Unfolds.append_left (hunfolds : Unfolds helpers rules us us') (v : List Symbol)
    (rest : Multiset (List Symbol)) :
    Unfolds helpers rules (us.map (v ++ ·) + rest) (us'.map (v ++ ·) + rest) := by
  obtain ⟨u, h, hh, others, rfl, rfl⟩ := hunfolds
  refine ⟨v ++ u, h, hh, others.map (v ++ ·) + rest, ?_, ?_⟩
  · rw [Multiset.map_cons, Multiset.cons_add, List.append_assoc]
  · rw [Multiset.map_add, Multiset.map_map, add_assoc]
    simp only [Function.comp_def, List.append_assoc]

end Unfolding

namespace Transform.Factoring

open Relation

variable {a b head helper h : Symbol} {name : String} {drafts : List Draft}
  {us us' : Multiset (List Symbol)} {helpers : List Symbol}

/-! ## Unfolding after a merge -/

section Merge

variable (a head drafts) in
/-- Those that are merged have the shared beginning in front. -/
theorem alternatives_eq_add : alternatives (rulesOf drafts) a =
    ((ends a head drafts).map (beginning a head drafts ++ ·) : List (List Symbol)) +
      alternatives (rulesOf (drafts.filter (!isMember a head ·))) a := by
  rw [alternatives_eq_of_perm (perm_rulesOf a head drafts), alternatives_append,
    alternatives_map_self]

theorem alternatives_merge_of_ne (ha : b ≠ a) (hhelper : b ≠ helper) :
    alternatives (rulesOf (merge a head helper name drafts)) b =
      alternatives (rulesOf drafts) b := by
  have hfilter : ∀ drafts : List Draft, alternatives (rulesOf drafts) b =
      ((drafts.filter (·.lhs = b)).map (·.rhs) : List (List Symbol)) := fun drafts => by
    rw [alternatives, rulesOf, List.filter_map, List.map_map]
    rfl
  rw [hfilter, hfilter, filter_merge_of_ne ha hhelper]

variable (hany : drafts.any (isMember a head) = true)
  (hfresh : ∀ r ∈ rulesOf drafts, r.lhs ≠ helper)
include hany hfresh

theorem alternatives_merge_self : alternatives (rulesOf (merge a head helper name drafts)) a =
    (beginning a head drafts ++ [helper]) ::ₘ
      alternatives (rulesOf (drafts.filter (!isMember a head ·))) a := by
  have hends : alternatives ((ends a head drafts).map (⟨helper, ·⟩)) a = 0 := by
    refine alternatives_eq_zero fun r hr => ?_
    obtain ⟨δ, -, rfl⟩ := List.mem_map.mp hr
    exact (ne_of_fresh hany hfresh).symm
  rw [alternatives_eq_of_perm (perm_rulesOf_merge hany), alternatives_cons_self,
    alternatives_append, hends, add_zero]

theorem alternatives_merge_helper :
    alternatives (rulesOf (merge a head helper name drafts)) helper = ends a head drafts := by
  have hothers : alternatives (rulesOf (drafts.filter (!isMember a head ·))) helper = 0 := by
    refine alternatives_eq_zero (forall_mem_rulesOf_iff.mpr fun d hd => ?_)
    exact hfresh _ (mem_rulesOf (List.mem_of_mem_filter hd))
  rw [alternatives_eq_of_perm (perm_rulesOf_merge hany),
    alternatives_cons_of_ne (ne_of_fresh hany hfresh), alternatives_append, hothers, zero_add]
  exact (alternatives_map_self id _).trans (congrArg _ (List.map_id _))

/-- **After a merge the alternatives of before are there to be unfolded.** -/
theorem unfolds_merge (hb : b ≠ helper) :
    ReflTransGen (Unfolds (helpers ++ [helper]) (rulesOf (merge a head helper name drafts)))
      (alternatives (rulesOf (merge a head helper name drafts)) b)
      (alternatives (rulesOf drafts) b) := by
  by_cases ha : b = a
  · subst ha
    refine .single ⟨_, helper, List.mem_append_right _ List.mem_cons_self, _,
      alternatives_merge_self hany hfresh, ?_⟩
    rw [alternatives_merge_helper hany hfresh, alternatives_eq_add b head, Multiset.map_coe]
  · rw [alternatives_merge_of_ne ha hb]

/-- What was unfolded before a merge is unfolded after it. If it is the merged nonterminal that
is unfolded, its new helper is too. -/
theorem unfolds_merge_of_unfolds (hhelpers : helper ∉ helpers)
    (hunfolds : Unfolds helpers (rulesOf drafts) us us') :
    ReflTransGen (Unfolds (helpers ++ [helper]) (rulesOf (merge a head helper name drafts)))
      us us' := by
  obtain ⟨u, h, hh, rest, rfl, rfl⟩ := hunfolds
  have hne : h ≠ helper := fun heq => hhelpers (heq ▸ hh)
  refine .head ⟨u, h, List.mem_append_left _ hh, rest, rfl, rfl⟩ ?_
  exact (unfolds_merge hany hfresh hne).lift (·.map (u ++ ·) + rest) fun _ _ hstep =>
    hstep.append_left u rest

end Merge

/-! ## What a helper is -/

/-- A helper occurs once, at the end of an alternative behind other symbols, and no other
alternative shares the first of them. -/
def Attached (drafts : List Draft) (h : Symbol) : Prop :=
  ∃ d s u, drafts.filter (h ∈ ·.rhs) = [d] ∧ members d.lhs s drafts = [d] ∧
    d.rhs = s :: u ++ [h] ∧ h ∉ s :: u

/-- There are two alternatives or more, and no symbol is the first of all. -/
def Branching (us : Multiset (List Symbol)) : Prop :=
  2 ≤ us.card ∧ ¬∃ s, ∀ u ∈ us, u.head? = some s

section Helper

/-- What a merge leaves in the place of the alternatives is all that is kept, if only they were
kept before. -/
theorem filter_merge_eq_singleton {keep : Draft → Bool} {d : Draft}
    (hperm : (merge a head helper name drafts).Perm
      (d :: (drafts.filter (!isMember a head ·) ++ helperDrafts helper name (ends a head drafts))))
    (hd : keep d = true) (hother : ∀ e ∈ drafts, isMember a head e = false → keep e = false)
    (hends : ∀ e : Draft, e.lhs = helper → e.rhs ∈ ends a head drafts → keep e = false) :
    (merge a head helper name drafts).filter keep = [d] := by
  have hothers : (drafts.filter (!isMember a head ·)).filter keep = [] := by
    refine List.filter_eq_nil_iff.mpr fun e he => ?_
    obtain ⟨he, hnot⟩ := List.mem_filter.mp he
    rw [hother e he (by simpa using hnot)]
    exact Bool.false_ne_true
  have hfilter := hperm.filter keep
  rw [List.filter_cons_of_pos hd, List.filter_append, hothers, filter_helperDrafts_eq_nil hends]
    at hfilter
  exact List.perm_singleton.mp hfilter

/-- The helper of a merge is attached where the merged alternatives were. -/
theorem attached_merge (hany : drafts.any (isMember a head) = true)
    (hfresh : ∀ r ∈ rulesOf drafts, r.lhs ≠ helper ∧ helper ∉ r.rhs) :
    Attached (merge a head helper name drafts) helper := by
  have hne : a ≠ helper := ne_of_fresh hany fun r hr => (hfresh r hr).1
  obtain ⟨u, hu⟩ := List.head?_eq_some_iff.mp (head?_beginning hany)
  obtain ⟨hbeginning, hends⟩ := not_mem_of_members hany fun d hd =>
    (hfresh _ (mem_rulesOf (List.mem_filter.mp hd).1)).2
  obtain ⟨label, hperm⟩ := exists_perm_merge helper name hany
  refine ⟨_, head, u, filter_merge_eq_singleton hperm ?_ ?_ ?_,
    filter_merge_eq_singleton hperm ?_ (fun _ _ h => h) ?_, congrArg (· ++ [helper]) hu,
    hu ▸ hbeginning⟩
  · exact decide_eq_true (List.mem_append_right _ List.mem_cons_self)
  · exact fun d hd _ => decide_eq_false (hfresh _ (mem_rulesOf hd)).2
  · exact fun d _ hd => decide_eq_false (hends _ hd)
  · exact isMember_iff.mpr ⟨rfl, u ++ [helper], congrArg (· ++ [helper]) hu⟩
  · intro d hd _
    rw [← Bool.not_eq_true, isMember_iff, hd]
    exact fun h => hne h.1.symm

/-- A helper that is attached stays so: its alternative is in no merge. -/
theorem Attached.merge (hshared : sharedHead? a drafts = some head)
    (hfresh : ∀ r ∈ rulesOf drafts, r.lhs ≠ helper) (hne : h ≠ helper) (hh : Attached drafts h) :
    Attached (merge a head helper name drafts) h := by
  have hany := any_isMember_of_sharedHead? hshared
  obtain ⟨d, s, u, honly, hmembers, hrhs, hnot⟩ := hh
  have hd : d ∈ drafts := List.mem_of_mem_filter (honly ▸ List.mem_singleton_self d)
  have hother := not_merged_of_members hshared hmembers
  have hfree : ∀ e ∈ members a head drafts, h ∉ e.rhs := by
    intro e he hmem
    obtain ⟨he, hmember⟩ := List.mem_filter.mp he
    have heq : e ∈ drafts.filter (h ∈ ·.rhs) := List.mem_filter.mpr ⟨he, decide_eq_true hmem⟩
    rw [honly, List.mem_singleton] at heq
    obtain ⟨hlhs, γ, hγ⟩ := isMember_iff.mp (heq ▸ hmember)
    rw [hrhs] at hγ
    exact hother ⟨hlhs, (List.cons.inj hγ).1⟩
  obtain ⟨hbeginning, hends⟩ := not_mem_of_members hany hfree
  refine ⟨d, s, u, ?_, ?_, hrhs, hnot⟩
  · rw [filter_merge, honly]
    · exact fun e he => decide_eq_false (hfree e he)
    · exact fun _ => decide_eq_false (by simp [hbeginning, hne])
    · exact fun _ _ he => decide_eq_false (hends _ he)
  · rw [members_merge hany hother (hfresh _ (mem_rulesOf hd)), hmembers]

theorem count_rules_of_attached (hh : Attached drafts h) :
    ((rulesOf drafts).flatMap (·.rhs)).count h = 1 ∧
      ∃ r ∈ rulesOf drafts, ∃ u ≠ [], r.rhs = u ++ [h] := by
  obtain ⟨d, s, u, honly, -, hrhs, hnot⟩ := hh
  have hd : d ∈ drafts := List.mem_of_mem_filter (honly ▸ List.mem_singleton_self d)
  refine ⟨?_, _, mem_rulesOf hd, s :: u, List.cons_ne_nil s u, hrhs⟩
  have hperm := (List.filter_append_perm (h ∈ ·.rhs) drafts).symm
  have hothers : ((drafts.filter fun e => !decide (h ∈ e.rhs)).flatMap (·.rhs)).count h = 0 := by
    refine List.count_eq_zero_of_not_mem fun hmem => ?_
    obtain ⟨e, he, hmem⟩ := List.mem_flatMap.mp hmem
    simpa [hmem] using (List.mem_filter.mp he).2
  rw [rulesOf, List.flatMap_map, (hperm.flatMap_right _).count_eq, honly, List.flatMap_append,
    List.count_append, hothers, List.flatMap_singleton, hrhs, List.count_append,
    List.count_eq_zero_of_not_mem hnot, List.count_singleton_self]

/-- The ends of a merge have no first symbol in common, since the shared beginning is the
longest. -/
theorem branching_ends (hshared : sharedHead? a drafts = some head) :
    Branching (ends a head drafts : List (List Symbol)) := by
  have hlength := two_le_length_members hshared
  refine ⟨?_, ?_⟩
  · rw [Multiset.coe_card, ends, List.length_map]
    exact hlength
  · rintro ⟨s, hs⟩
    have hlonger : beginning a head drafts ++ [s] <+: beginning a head drafts := by
      refine prefix_commonOfAll ?_ fun v hv => ?_
      · exact List.ne_nil_of_length_pos (by rw [List.length_map]; omega)
      · obtain ⟨d, hd, rfl⟩ := List.mem_map.mp hv
        obtain ⟨γ, hγ⟩ := List.head?_eq_some_iff.mp (hs _ (List.mem_map_of_mem hd))
        refine ⟨γ, ?_⟩
        rw [List.append_assoc, List.singleton_append, ← hγ]
        exact beginning_append_drop hd
    have hle := hlonger.length_le
    rw [List.length_append, List.length_singleton] at hle
    omega

/-- A helper whose alternatives have no first symbol in common stays so, also where some of them
are merged: one that starts otherwise is left beside them. -/
theorem branching_merge (hany : drafts.any (isMember a head) = true)
    (hfresh : ∀ r ∈ rulesOf drafts, r.lhs ≠ helper) (hne : h ≠ helper)
    (hh : Branching (alternatives (rulesOf drafts) h)) :
    Branching (alternatives (rulesOf (merge a head helper name drafts)) h) := by
  by_cases ha : h = a
  · subst ha
    obtain ⟨-, hnone⟩ := hh
    have hhead : (beginning h head drafts).head? = some head := head?_beginning hany
    have hfirst : ∀ v, (beginning h head drafts ++ v).head? = some head := fun v => by
      rw [List.head?_append, hhead]
      rfl
    obtain ⟨u, hu, hother⟩ : ∃ u ∈ alternatives (rulesOf drafts) h, u.head? ≠ some head := by
      simpa only [not_forall, exists_prop] using not_exists.mp hnone head
    rw [alternatives_eq_add h head drafts, Multiset.mem_add] at hu
    have hu : u ∈ alternatives (rulesOf (drafts.filter (!isMember h head ·))) h := by
      refine hu.resolve_left fun hu => ?_
      obtain ⟨δ, -, rfl⟩ := List.mem_map.mp (Multiset.mem_coe.mp hu)
      exact hother (hfirst δ)
    rw [alternatives_merge_self hany hfresh]
    refine ⟨?_, ?_⟩
    · rw [Multiset.card_cons]
      exact Nat.succ_le_succ (Multiset.card_pos_iff_exists_mem.mpr ⟨u, hu⟩)
    · rintro ⟨s, hs⟩
      refine hother ((hs u (Multiset.mem_cons_of_mem hu)).trans ?_)
      rw [← hs _ (Multiset.mem_cons_self _ _), hfirst]
  · rw [alternatives_merge_of_ne ha hne]
    exact hh

end Helper

/-! ## The run -/

variable {g : Grammar} {p : Progress} {options : Options}

/-- A factoring under way: its helpers are what helpers are, and unfolding them gives the
alternatives of the start. -/
structure Unfolding (g : Grammar) (p : Progress) : Prop where
  tracks : p.Tracks g
  attached : ∀ h ∈ p.helpers, Attached p.drafts h
  branching : ∀ h ∈ p.helpers, Branching (alternatives (rulesOf p.drafts) h)
  unfolds : ∀ b, g.symbols.contains b = true →
    ReflTransGen (Unfolds p.helpers (rulesOf p.drafts)) (alternatives (rulesOf p.drafts) b)
      (alternatives g.system.rules b)

theorem Unfolding.start (hg : g.WellFormed) : Unfolding g (.start g #[]) where
  tracks := .start hg #[]
  attached := by rintro _ ⟨⟩
  branching := by rintro _ ⟨⟩
  unfolds := fun b _ => by rw [rules_eq_rulesOf]; exact .refl

theorem Unfolding.merge (hp : Unfolding g p) (hshared : sharedHead? a p.drafts = some head)
    (journal : Array Event) :
    let issued := p.introduce options a
    Unfolding g { issued.2 with
      drafts := merge a head issued.1 (issued.2.name issued.1) p.drafts
      changed := true
      journal } := by
  intro issued
  have hany := any_isMember_of_sharedHead? hshared
  have hfresh := hp.tracks.fresh options a
  have hlhs : ∀ r ∈ rulesOf p.drafts, r.lhs ≠ issued.1 := fun r hr => (hfresh r hr).1
  have hhelpers : issued.1 ∉ p.helpers := fun hmem =>
    Progress.ne_introduce (hp.tracks.contains_iff.mpr (Or.inr hmem)) rfl
  have hold : ∀ h ∈ p.helpers ++ [issued.1], h ≠ issued.1 → h ∈ p.helpers := fun h hh hne =>
    (List.mem_append.mp hh).resolve_right fun hnew => hne (List.mem_singleton.mp hnew)
  refine ⟨tracks_merge hp.tracks hshared journal, fun h hh => ?_, fun h hh => ?_,
    fun b hb => ?_⟩
  · by_cases hne : h = issued.1
    · rw [hne]
      exact attached_merge hany hfresh
    · exact (hp.attached h (hold h hh hne)).merge hshared hlhs hne
  · by_cases hne : h = issued.1
    · show Branching (alternatives (rulesOf (Factoring.merge ..)) h)
      rw [hne, alternatives_merge_helper hany hlhs]
      exact branching_ends hshared
    · exact branching_merge hany hlhs hne (hp.branching h (hold h hh hne))
  · refine (unfolds_merge hany hlhs (hp.tracks.ne_introduce hb)).trans ?_
    exact reflTransGen_closed (fun _ _ => unfolds_merge_of_unfolds hany hlhs hhelpers) _ _
      (hp.unfolds b hb)

variable (options) in
theorem unfolding_factorAll (hp : Unfolding g p) (queue : List Symbol) :
    Meets (Unfolding g) (Unfolding g ·.progress) (factorAll options p queue) :=
  meets_factorAll_of_merge (fun _ _ _ hp hshared => hp.merge hshared) hp queue

/-- **Left-factoring loses and duplicates no alternative.** Every helper occurs once in the result,
at the end of an alternative and behind at least one symbol. It has two alternatives or more,
which do not all start with one symbol, since what is merged is the longest beginning. And if
helpers at the end of alternatives are unfolded until none is left, every nonterminal has the
alternatives that it had before, each as often. -/
theorem unfold_leftFactor (hg : g.Reachable) (options : Options) {helpers : List Symbol}
    (hok : (g.leftFactor options).result = .ok helpers) :
    let rules := (g.leftFactor options).grammar.system.rules
    (∀ h ∈ helpers, (rules.flatMap (·.rhs)).count h = 1 ∧
      ∃ r ∈ rules, ∃ u ≠ [], r.rhs = u ++ [h]) ∧
    (∀ h ∈ helpers, 2 ≤ (alternatives rules h).card ∧
      ¬∃ s, ∀ u ∈ alternatives rules h, u.head? = some s) ∧
    ∀ a ∈ g.symbols.nonterminals,
      (∀ u ∈ alternatives g.system.rules a, ∀ h ∈ helpers, h ∉ u) ∧
      ∃ rounds, ∀ n ≥ rounds,
        (unfoldEnds helpers rules)^[n] (alternatives rules a) =
          alternatives g.system.rules a := by
  have hwf := hg.wellFormed
  have hrun := unfolding_factorAll options (Unfolding.start hwf) g.symbols.nonterminals
  obtain ⟨p, hp, htracks, rfl, heq⟩ := exists_tracks_of_ok hwf hok
  rw [hp] at hrun
  change Unfolding g p at hrun
  rw [heq, (htracks.commit_eq hwf).2.1]
  refine ⟨fun h hh => count_rules_of_attached (hrun.attached h hh), hrun.branching,
    fun a ha => ?_⟩
  have hdone : ∀ u ∈ alternatives g.system.rules a, ∀ h ∈ p.helpers, h ∉ u := by
    intro u hu h hh hmem
    obtain ⟨q, hq, heq⟩ := List.mem_map.mp (mem_alternatives_iff.mp hu)
    refine htracks.not_contains_helper hh ((hwf.admits q hq).2 h ?_)
    rw [heq]
    exact hmem
  refine ⟨hdone, exists_rounds (hrun.unfolds a ?_) hdone⟩
  exact SymbolTable.contains_of_kind? (SymbolTable.mem_nonterminals_iff.mp ha)

/-- Of the alternatives `S a`, `a` and `a b` of the sample, two are merged; unfolding gives the
three back. -/
theorem unfold_leftFactor_sample :
    let rules := (Grammar.sample.leftFactor {}).grammar.system.rules
    (Grammar.sample.leftFactor {}).result = .ok [⟨⟨1⟩, 3⟩] ∧
      alternatives rules ⟨⟨1⟩, 3⟩ = {[], [⟨⟨1⟩, 2⟩]} ∧
      ∃ rounds, ∀ n ≥ rounds,
        (unfoldEnds [⟨⟨1⟩, 3⟩] rules)^[n] (alternatives rules ⟨⟨1⟩, 0⟩) =
          {[⟨⟨1⟩, 0⟩, ⟨⟨1⟩, 1⟩], [⟨⟨1⟩, 1⟩], [⟨⟨1⟩, 1⟩, ⟨⟨1⟩, 2⟩]} := by
  have hok := Grammar.leftFactor_sample
  obtain ⟨-, -, hall⟩ := unfold_leftFactor Grammar.reachable_sample {} hok
  have hrules : (Grammar.sample.leftFactor {}).grammar.system.rules =
      [⟨⟨⟨1⟩, 0⟩, [⟨⟨1⟩, 0⟩, ⟨⟨1⟩, 1⟩]⟩, ⟨⟨⟨1⟩, 0⟩, [⟨⟨1⟩, 1⟩, ⟨⟨1⟩, 3⟩]⟩,
        ⟨⟨⟨1⟩, 3⟩, []⟩, ⟨⟨⟨1⟩, 3⟩, [⟨⟨1⟩, 2⟩]⟩] :=
    leftFactor_of_within (n := 4) (f := (·.grammar.system.rules)) (by decide +kernel)
  refine ⟨hok, ?_, ?_⟩
  · rw [hrules]
    rfl
  · exact (hall ⟨⟨1⟩, 0⟩ (by decide)).2

end Transform.Factoring

end TopDown
