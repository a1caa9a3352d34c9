import Mathlib.Algebra.BigOperators.Group.List.Basic
import Mathlib.Algebra.Group.Action.Defs
import Mathlib.Algebra.GroupWithZero.Nat
import Mathlib.Data.Nat.Init
import TopDown.Proofs.Factoring.NormalForm
import TopDown.Proofs.Transform.Cutoff

/-!
# Overlap

The overlap of a list of rules counts, over all pairs of alternatives of one nonterminal, the
symbols that the two share at their beginning. A merge takes at least one of them away, so
left-factoring ends without help from the limit.

* `overlap_eq_of_perm`, `overlap_append`: the overlap does not depend on the order of the rules,
  and of two lists it is that of each and what they share.
* `perm_rulesOf`, `perm_rulesOf_merge`: the rules before a merge and after it, in any order.
* `overlap_merge_lt`: a merge makes the overlap smaller.
* `settles_factorAll`: so a run arrives somewhere under every limit that is high enough.
* `thresholded_leftFactor`: the limit is a cutoff of left-factoring.
-/

namespace TopDown.Transform.Factoring

/-! ## The overlap of a list of rules -/

/-- How many symbols two alternatives of one nonterminal share at their beginning. -/
def agreement (r r' : Rule) : Nat := if r.lhs = r'.lhs then (common r.rhs r'.rhs).length else 0

/-- What a rule shares with the rules of a list, in sum. -/
def agreements (r : Rule) (rules : List Rule) : Nat := (rules.map (agreement r)).sum

/-- What the rules of a list share, over all pairs. -/
def overlap : List Rule → Nat
  | [] => 0
  | r :: rules => agreements r rules + overlap rules

variable {r r' : Rule} {rules rules' : List Rule} {s : Symbol} {u v : List Symbol}

theorem common_comm (u v : List Symbol) : common u v = common v u := by
  induction u generalizing v with
  | nil => cases v <;> rfl
  | cons a u ih =>
      cases v with
      | nil => rfl
      | cons b v =>
          unfold common
          by_cases hab : a = b
          · subst hab
            rw [if_pos rfl, if_pos rfl, ih]
          · rw [if_neg hab, if_neg (Ne.symm hab)]

theorem common_eq_nil (hu : u.head? = some s) (hv : v.head? ≠ some s) : common u v = [] := by
  obtain ⟨u, rfl⟩ := List.head?_eq_some_iff.mp hu
  cases v with
  | nil => rfl
  | cons b v =>
      rw [common, if_neg]
      rintro rfl
      exact hv rfl

theorem common_append_append (u v w : List Symbol) :
    common (u ++ v) (u ++ w) = u ++ common v w := by
  induction u with
  | nil => rfl
  | cons a u ih =>
      rw [List.cons_append, List.cons_append, common, if_pos rfl, ih]
      rfl

theorem agreement_comm (r r' : Rule) : agreement r r' = agreement r' r := by
  unfold agreement
  rw [common_comm]
  exact if_congr eq_comm rfl rfl

theorem agreements_append :
    agreements r (rules ++ rules') = agreements r rules + agreements r rules' := by
  rw [agreements, List.map_append, List.sum_append]
  rfl

theorem agreements_eq_zero (h : ∀ r' ∈ rules, agreement r r' = 0) : agreements r rules = 0 := by
  refine List.sum_eq_zero fun n hn => ?_
  obtain ⟨r', hr', rfl⟩ := List.mem_map.mp hn
  exact h r' hr'

theorem overlap_append : overlap (rules ++ rules') =
    overlap rules + overlap rules' + (rules.map (agreements · rules')).sum := by
  induction rules with
  | nil => simp [overlap]
  | cons r rules ih =>
      rw [List.cons_append, overlap, overlap, agreements_append, ih, List.map_cons,
        List.sum_cons]
      omega

theorem overlap_eq_of_perm (h : rules.Perm rules') : overlap rules = overlap rules' := by
  induction h with
  | nil => rfl
  | cons r hperm ih =>
      rw [overlap, overlap, ih]
      exact congrArg (· + _) (hperm.map (agreement r)).sum_eq
  | swap r r' rules =>
      simp only [overlap, agreements, List.map_cons, List.sum_cons, agreement_comm r r']
      omega
  | trans _ _ ih ih' => exact ih.trans ih'

/-- Alternatives of `a` that share a beginning overlap by it in each pair, and by what is left. -/
theorem overlap_map_append (a b : Symbol) (u : List Symbol) (ends : List (List Symbol)) :
    overlap (ends.map (⟨b, ·⟩)) + u.length * (ends.length - 1) ≤
      overlap (ends.map (⟨a, u ++ ·⟩)) := by
  have hagree : ∀ v, ∀ ends : List (List Symbol),
      agreements ⟨a, u ++ v⟩ (ends.map (⟨a, u ++ ·⟩)) =
        agreements ⟨b, v⟩ (ends.map (⟨b, ·⟩)) + u.length * ends.length := by
    intro v ends
    simp only [agreements, agreement, List.map_map, Function.comp_def, if_true,
      common_append_append, List.length_append, List.sum_map_add, List.map_const',
      List.sum_replicate, smul_eq_mul]
    rw [Nat.add_comm, Nat.mul_comm]
  induction ends with
  | nil => exact Nat.le_refl _
  | cons v ends ih =>
      rw [List.map_cons, List.map_cons, overlap, overlap, hagree, List.length_cons,
        Nat.add_sub_cancel]
      omega

/-! ## A merge takes overlap away -/

variable {a head helper : Symbol} {name : String} {drafts : List Draft}

theorem perm_mergeInto {fits : Draft → Bool} {merged : Draft → Draft} {c : Draft}
    (h : drafts.find? fits = some c) :
    (mergeInto fits merged drafts).Perm (merged c :: drafts.filter (!fits ·)) := by
  induction drafts with
  | nil => cases h
  | cons d drafts ih =>
      cases hd : fits d with
      | true =>
          rw [List.find?_cons_of_pos hd] at h
          cases h
          rw [mergeInto, if_pos hd, List.filter_cons_of_neg (by simp [hd])]
      | false =>
          rw [List.find?_cons_of_neg (by simp [hd])] at h
          rw [mergeInto, if_neg (by simp [hd]), List.filter_cons_of_pos (by simp [hd])]
          exact ((ih h).cons d).trans (.swap _ _ _)

theorem count_heads : (heads a drafts).count head = (members a head drafts).length := by
  rw [heads, members, List.count, List.countP_filterMap, List.countP_filter,
    List.countP_eq_length_filter]
  refine congrArg List.length (List.filter_congr fun d _ => ?_)
  rw [isMember]
  cases d.rhs.head? <;> simp [Bool.and_comm, beq_eq_decide]

theorem two_le_length_members (h : sharedHead? a drafts = some head) :
    2 ≤ (members a head drafts).length := by
  unfold sharedHead? at h
  rw [← count_heads]
  simpa using List.find?_some h

/-- An alternative that shares its first symbol with no other is not merged. -/
theorem not_merged_of_members {b s : Symbol} {d : Draft} (h : sharedHead? a drafts = some head)
    (hmembers : members b s drafts = [d]) : ¬(b = a ∧ s = head) := by
  rintro ⟨rfl, rfl⟩
  have htwo := two_le_length_members h
  rw [hmembers, List.length_singleton] at htwo
  omega

/-- The alternatives that are merged, as the shared beginning followed by their ends. -/
theorem rulesOf_members : rulesOf (members a head drafts) =
    (ends a head drafts).map (⟨a, beginning a head drafts ++ ·⟩) := by
  rw [rulesOf, ends, List.map_map]
  refine List.map_congr_left fun d hd => ?_
  have hlhs := (isMember_iff.mp (List.mem_filter.mp hd).2).1
  show (⟨d.lhs, d.rhs⟩ : Rule) = ⟨a, beginning a head drafts ++ d.rhs.drop _⟩
  rw [hlhs, beginning_append_drop hd]

/-- Before a merge: the alternatives that it takes, and the other rules. -/
theorem perm_rulesOf (a head : Symbol) (drafts : List Draft) : (rulesOf drafts).Perm
    ((ends a head drafts).map (⟨a, beginning a head drafts ++ ·⟩) ++
      rulesOf (drafts.filter (!isMember a head ·))) := by
  rw [← rulesOf_members, ← rulesOf_append]
  exact ((List.filter_append_perm _ _).map _).symm

variable (helper name) in
/-- After a merge: the draft that it leaves, the others, and those of the helper. -/
theorem exists_perm_merge (hany : drafts.any (isMember a head) = true) : ∃ label,
    (merge a head helper name drafts).Perm
      ({ label, lhs := a, rhs := beginning a head drafts ++ [helper] } ::
        (drafts.filter (!isMember a head ·) ++
          helperDrafts helper name (ends a head drafts))) := by
  obtain ⟨c, hc⟩ := Option.isSome_iff_exists.mp
    (List.find?_isSome.mpr (List.any_eq_true.mp hany))
  rw [merge_eq]
  exact ⟨c.label, (perm_mergeInto hc).append_right _⟩

theorem perm_rulesOf_merge (hany : drafts.any (isMember a head) = true) :
    (rulesOf (merge a head helper name drafts)).Perm
      (⟨a, beginning a head drafts ++ [helper]⟩ ::
        (rulesOf (drafts.filter (!isMember a head ·)) ++
          (ends a head drafts).map (⟨helper, ·⟩))) := by
  obtain ⟨label, hperm⟩ := exists_perm_merge helper name hany
  rw [← rulesOf_helperDrafts, ← rulesOf_append]
  exact hperm.map _

variable (name) in
/-- **A merge takes overlap away.** The ends share less than the alternatives did, and what was
put in their place shares nothing with any other rule. -/
theorem overlap_merge_lt (hshared : sharedHead? a drafts = some head)
    (hfresh : ∀ r ∈ rulesOf drafts, r.lhs ≠ helper) :
    overlap (rulesOf (merge a head helper name drafts)) < overlap (rulesOf drafts) := by
  have hany := any_isMember_of_sharedHead? hshared
  let shared := beginning a head drafts
  let others := drafts.filter (!isMember a head ·)
  have hmem : ∀ r ∈ rulesOf others, r ∈ rulesOf drafts ∧ (r.lhs = a → r.rhs.head? ≠ some head) := by
    refine forall_mem_rulesOf_iff.mpr fun d hd => ?_
    obtain ⟨hd, hnot⟩ := List.mem_filter.mp hd
    refine ⟨mem_rulesOf hd, fun hlhs hhead => ?_⟩
    rw [isMember_iff.mpr ⟨hlhs, List.head?_eq_some_iff.mp hhead⟩] at hnot
    cases hnot
  have hne := ne_of_fresh hany hfresh
  -- The alternatives agree along the shared beginning; the ends agree as they did beyond it, and
  -- the one rule that still has the beginning agrees with no other.
  have hbefore : overlap ((ends a head drafts).map (⟨a, shared ++ ·⟩)) + overlap (rulesOf others) ≤
      overlap (rulesOf drafts) := by
    rw [overlap_eq_of_perm (perm_rulesOf a head drafts), overlap_append]
    exact Nat.le_add_right _ _
  have hafter : overlap (rulesOf (merge a head helper name drafts)) =
      overlap (rulesOf others) + overlap ((ends a head drafts).map (⟨helper, ·⟩)) := by
    rw [overlap_eq_of_perm (perm_rulesOf_merge hany), overlap, overlap_append, agreements_append]
    rw [agreements_eq_zero, agreements_eq_zero, List.sum_eq_zero]
    · show 0 + 0 + (overlap (rulesOf others) + _ + 0) = _
      omega
    · intro n hn
      obtain ⟨r, hr, rfl⟩ := List.mem_map.mp hn
      refine agreements_eq_zero fun r' hr' => ?_
      obtain ⟨δ, -, rfl⟩ := List.mem_map.mp hr'
      exact if_neg (hfresh r (hmem r hr).1)
    · intro r' hr'
      obtain ⟨δ, -, rfl⟩ := List.mem_map.mp hr'
      exact if_neg hne
    · intro r hr
      unfold agreement
      split
      · rename_i hlhs
        rw [common_eq_nil (s := head)]
        · rfl
        · rw [List.head?_append, head?_beginning hany]
          rfl
        · exact (hmem r hr).2 hlhs.symm
      · rfl
  have hends := overlap_map_append a helper shared (ends a head drafts)
  have hlength : 2 ≤ (ends a head drafts).length := by
    rw [ends, List.length_map]
    exact two_le_length_members hshared
  have hpos : 0 < shared.length := by
    refine List.length_pos_of_ne_nil fun hnil => ?_
    have hhead := head?_beginning hany
    rw [show beginning a head drafts = [] from hnil] at hhead
    cases hhead
  have hmul : 1 ≤ shared.length * ((ends a head drafts).length - 1) :=
    Nat.mul_pos hpos (by omega)
  omega

/-! ## The run under every limit -/

variable {options : Options} {g : Grammar} {p : Progress}

theorem settles_step {I : Progress → Prop} (hshared : sharedHead? a p.drafts = some head)
    (merged : ∀ journal,
      let issued := p.introduce options a
      I { issued.2 with
        drafts := merge a head issued.1 (issued.2.name issued.1) p.drafts
        changed := true
        journal }) :
    Settles I p fun limit =>
      step { options with limit } a head (prepare { options with limit } a head p) := by
  obtain ⟨journal, heq⟩ := exists_step_eq options a head p
  simp only [heq]
  refine Settles.of_submit (merged journal) ?_
  rw [length_merge (any_isMember_of_sharedHead? hshared)]
  exact Nat.le_succ _

variable (options) in
/-- Factoring from a queue, as in `meets_factorAll`; the induction is on the overlap, and on the
length of the queue where that stays the same. -/
theorem settles_factorAll {K : List Symbol → Progress → Prop}
    (tracks : ∀ queue p, K queue p → p.Tracks g)
    (done : ∀ a queue p, K (a :: queue) p → sharedHead? a p.drafts = none → K queue p)
    (merged : ∀ a queue p head, K (a :: queue) p → sharedHead? a p.drafts = some head →
      ∀ journal,
        let issued := p.introduce options a
        K (a :: queue ++ [issued.1]) { issued.2 with
          drafts := merge a head issued.1 (issued.2.name issued.1) p.drafts
          changed := true
          journal })
    {queue : List Symbol} (hp : K queue p) :
    Settles (K []) p fun limit => factorAll { options with limit } p queue := by
  induction hn : overlap (rulesOf p.drafts) using Nat.strong_induction_on generalizing p queue with
  | _ n ihoverlap =>
      subst hn
      induction queue with
      | nil => exact .unchanged hp fun _ => factorAll_nil
      | cons a queue ihqueue =>
          cases hshared : sharedHead? a p.drafts with
          | none =>
              simp only [factorAll_of_done hshared]
              exact ihqueue (done a queue p hp hshared)
          | some head =>
              let issued := p.introduce options a
              have hsmaller := overlap_merge_lt (issued.2.name issued.1) hshared fun r hr =>
                ((tracks _ p hp).fresh options a r hr).1
              simp only [factorAll_of_shared hshared]
              -- The bind forgets which step was taken, so the overlap is part of what it hands on.
              refine Settles.bind (J := fun q => K (a :: queue ++ [issued.1]) q ∧
                overlap (rulesOf q.drafts) < overlap (rulesOf p.drafts)) ?_ ?_
              · exact settles_step hshared fun journal =>
                  ⟨merged a queue p head hp hshared journal, hsmaller⟩
              · rintro q ⟨hq, hlt⟩
                exact ihoverlap _ hlt hq rfl

variable (options) in
theorem thresholded_leftFactor (hg : g.WellFormed) (hnot : ¬Factored g.system.rules) :
    Thresholded fun limit => g.leftFactor { options with limit } := by
  have hstart : Settles (fun q => q.Tracks g ∧ Factored (rulesOf q.drafts)) (.start g #[])
      fun limit => factorAll { options with limit } (.start g #[]) g.symbols.nonterminals := by
    have hrun := settles_factorAll options
      (K := fun queue q => q.Tracks g ∧ ∀ b, b ∉ queue → (heads b q.drafts).Nodup)
      (fun _ _ h => h.1) (fun _ _ _ h hshared => ⟨h.1, nodup_heads_of_done h.2 hshared⟩)
      (fun _ _ _ _ h hshared journal => ⟨tracks_merge h.1 hshared journal, nodup_heads_merge h.2⟩)
      ⟨.start hg #[], nodup_heads_start hg⟩
    exact hrun.mono fun q hq => ⟨hq.1, factored_iff.mpr fun b => hq.2 b List.not_mem_nil⟩
  refine hstart.thresholded hg (fun h => hnot ?_) (fun q h => h.1) (fun q _ => ⟨q.journal, ?_⟩) ?_
  · rw [rules_eq_rulesOf]
    exact h.2
  · intro limit hq
    rw [Grammar.leftFactor, hq]
  · intro limit failure hfail
    rw [Grammar.leftFactor, hfail]

end TopDown.Transform.Factoring
