import TopDown.Proofs.Transform.Tracking

/-!
# The limit as a cutoff

A step is run under every limit at once. Either it does nothing under any limit, or there is one
progress at which it arrives under every limit that is high enough, and lower limits stop it.

* `Settles` is this guarantee, together with what holds of the progress and the fact that the list
  of drafts got no shorter. It composes along binds (`Settles.bind`), because a limit that stops
  the first step is lower than the number of drafts at the end.
* `Thresholded` says the same of a whole transformation and its outcome;
  `Settles.thresholded` carries it over.
-/

namespace TopDown.Transform

/-- What a step from `p` does under each limit: nothing at all, or it arrives at no fewer drafts,
unless the limit is lower than their number. -/
inductive Settles (I : Progress → Prop) (p : Progress)
    (step : Nat → Except Failure Progress) : Prop
  | unchanged (holds : I p) (stays : ∀ limit, step limit = .ok p)
  | changed (q : Progress) (holds : I q) (touched : q.changed = true)
      (grows : p.drafts.length ≤ q.drafts.length)
      (arrives : ∀ limit, q.drafts.length ≤ limit → step limit = .ok q)
      (stops : ∀ limit, limit < q.drafts.length → ∃ failure name,
        step limit = .error failure ∧ failure.error = .tooManyProductions limit name)

namespace Settles

variable {I J : Progress → Prop} {p : Progress} {step : Nat → Except Failure Progress}

theorem mono (h : Settles J p step) (himp : ∀ q, J q → I q) : Settles I p step := by
  cases h with
  | unchanged holds stays => exact .unchanged (himp p holds) stays
  | changed q holds touched grows arrives stops =>
      exact .changed q (himp q holds) touched grows arrives stops

theorem bind {next : Nat → Progress → Except Failure Progress} (h : Settles J p step)
    (hnext : ∀ q, J q → Settles I q fun limit => next limit q) :
    Settles I p fun limit => step limit >>= next limit := by
  cases h with
  | unchanged holds stays =>
      have hbind : (fun limit => step limit >>= next limit) = fun limit => next limit p := by
        funext limit
        rw [stays]
        rfl
      rw [hbind]
      exact hnext p holds
  | changed q holds touched grows arrives stops =>
      -- Below the length of `q` the first step stops both; from there on only the second counts.
      have hstop : ∀ limit, limit < q.drafts.length → ∃ failure name,
          step limit >>= next limit = .error failure ∧
            failure.error = .tooManyProductions limit name := by
        intro limit hlt
        obtain ⟨failure, name, hfail, herror⟩ := stops limit hlt
        exact ⟨failure, name, by rw [hfail]; rfl, herror⟩
      have harrive : ∀ limit, q.drafts.length ≤ limit →
          step limit >>= next limit = next limit q := by
        intro limit hle
        rw [arrives limit hle]
        rfl
      cases hnext q holds with
      | unchanged holds' stays' =>
          exact .changed q holds' touched grows
            (fun limit hle => (harrive limit hle).trans (stays' limit)) hstop
      | changed r holds' touched' grows' arrives' stops' =>
          refine .changed r holds' touched' (Nat.le_trans grows grows') (fun limit hle => ?_)
            fun limit hlt => ?_
          · exact (harrive limit (Nat.le_trans grows' hle)).trans (arrives' limit hle)
          · by_cases hfirst : limit < q.drafts.length
            · exact hstop limit hfirst
            · rw [harrive limit (Nat.le_of_not_lt hfirst)]
              exact stops' limit hlt

/-- New drafts are taken, or the limit is passed. -/
theorem of_submit {q : Progress} {options : Options} {nonterminal : Symbol} {drafts : List Draft}
    (holds : I { q with drafts, changed := true }) (grows : p.drafts.length ≤ drafts.length) :
    Settles I p fun limit => q.submit { options with limit } nonterminal drafts := by
  refine .changed { q with drafts, changed := true } holds rfl grows (fun limit hle => ?_)
    fun limit hlt => ?_
  · exact Progress.submit_eq_ok_iff.mpr ⟨hle, rfl⟩
  · exact ⟨_, _, if_pos hlt, rfl⟩

end Settles

/-! ## Whole transformations -/

/-- The limit is a cutoff with an exact threshold: there is one outcome, which every limit from
the length of its production list on leads to, and every lower limit stops the transformation. -/
def Thresholded (transform : Nat → Outcome) : Prop :=
  ∃ outcome : Outcome, ∀ limit,
    (outcome.grammar.productions.length ≤ limit ↔
      ∃ helpers, (transform limit).result = .ok helpers) ∧
    (limit < outcome.grammar.productions.length ↔
      ∃ name, (transform limit).result = .error (.tooManyProductions limit name)) ∧
    (outcome.grammar.productions.length ≤ limit → transform limit = outcome)

/-- One limit that is high enough tells the threshold. -/
theorem Thresholded.stops {transform : Nat → Outcome} (h : Thresholded transform)
    {limit lower : Nat} {helpers : List Symbol} (hok : (transform limit).result = .ok helpers)
    (hlt : lower < (transform limit).grammar.productions.length) :
    ∃ name, (transform lower).result = .error (.tooManyProductions lower name) := by
  obtain ⟨outcome, houtcome⟩ := h
  have hle := (houtcome limit).1.mpr ⟨helpers, hok⟩
  rw [(houtcome limit).2.2 hle] at hlt
  exact (houtcome lower).2.1.mp hlt

theorem length_productions_commit {g : Grammar} {p : Progress} (h : p.Tracks g)
    (hg : g.WellFormed) : p.commit.grammar.productions.length = p.drafts.length := by
  have hrules := congrArg List.length (h.commit_eq hg).2.1
  simpa [Grammar.system, rulesOf] using hrules

/-- A transformation that aborts with its run, and commits what the run arrives at, takes over
the threshold of the run. -/
theorem Settles.thresholded {g : Grammar} (hg : g.WellFormed) {I : Progress → Prop} {p : Progress}
    {run : Nat → Except Failure Progress} {transform : Nat → Outcome} (h : Settles I p run)
    (hunchanged : ¬I p) (htracks : ∀ q, I q → q.Tracks g)
    (hcommit : ∀ q, I q → ∃ journal, ∀ limit, run limit = .ok q →
      transform limit = { q with journal }.commit)
    (habort : ∀ limit failure, run limit = .error failure → transform limit = failure.abort) :
    Thresholded transform := by
  cases h with
  | unchanged holds => exact absurd holds hunchanged
  | changed q holds _ _ arrives stops =>
      obtain ⟨journal, hcommit⟩ := hcommit q holds
      have hq := (htracks q holds).journal journal
      have hlength := length_productions_commit hq hg
      have hok := (hq.commit_eq hg).1
      refine ⟨{ q with journal }.commit, fun limit => ?_⟩
      rw [hlength]
      show (q.drafts.length ≤ limit ↔ _) ∧ (limit < q.drafts.length ↔ _) ∧ _
      rcases Nat.lt_or_ge limit q.drafts.length with hlt | hle
      · obtain ⟨failure, name, hfail, herror⟩ := stops limit hlt
        have hresult : (transform limit).result = .error (.tooManyProductions limit name) := by
          rw [habort limit failure hfail, ← herror]
          rfl
        rw [hresult]
        exact ⟨iff_of_false (Nat.not_le_of_lt hlt) nofun, iff_of_true hlt ⟨name, rfl⟩,
          fun hle => absurd hle (Nat.not_le_of_lt hlt)⟩
      · have houtcome := hcommit limit (arrives limit hle)
        rw [houtcome, hok]
        exact ⟨iff_of_true hle ⟨_, rfl⟩, iff_of_false (Nat.not_lt_of_le hle) nofun, fun _ => rfl⟩

end TopDown.Transform
