import Mathlib.Logic.Function.Iterate
import TopDown.Proofs.Factoring.Overlap

/-!
# The worklist of left-factoring

Left-factoring ends by itself: the limit stops it early or not at all. To say so, it is run without
a limit, one turn after the other.

* `turn` is one turn of the worklist, whatever the limit; `factorAll_of_turns` and
  `exists_turns_of_factorAll` say that factoring under a limit makes these turns.
* `potential_turn_lt`: each turn makes twice the overlap and the length of the queue less, in sum.
* `Bounded` is what the turns keep: each helper was paid for by overlap, and made the list of
  drafts longer by one.
* `ends_leftFactor`: the turns come to an end, after no more helpers than there was overlap.
-/

namespace TopDown.Transform.Factoring

/-- The state of the worklist: the queue and the progress made. -/
abbrev Worklist := List Symbol × Progress

/-- One turn of the worklist, whatever the limit: the nonterminal in front is factored once, and
the helper joins the queue at its end; or nothing is left to factor, and it leaves the queue. -/
def turn (options : Options) : Worklist → Worklist
  | ([], p) => ([], p)
  | (a :: queue, p) =>
    match sharedHead? a p.drafts with
    | none => (queue, p)
    | some head =>
      let prepared := prepare options a head p
      let drafts := merge a head prepared.1 (prepared.2.name prepared.1) prepared.2.drafts
      (a :: queue ++ [prepared.1], { prepared.2 with drafts, changed := true })

/-- What is left to do, at the most: every symbol of overlap may take a turn and the turn in which
its helper leaves the queue. -/
def potential (state : Worklist) : Nat := 2 * overlap (rulesOf state.2.drafts) + state.1.length

variable {options : Options} {g : Grammar} {p q : Progress} {a head : Symbol}
  {queue : List Symbol} {state : Worklist}

/-! ## One turn -/

theorem turn_of_done (h : sharedHead? a p.drafts = none) :
    turn options (a :: queue, p) = (queue, p) := by
  simp only [turn, h]

variable (options queue) in
/-- A turn in which something is factored issues a helper and merges. -/
theorem exists_turn_of_shared (h : sharedHead? a p.drafts = some head) :
    let issued := p.introduce options a
    ∃ journal, turn options (a :: queue, p) = (a :: queue ++ [issued.1],
      { issued.2 with
        drafts := merge a head issued.1 (issued.2.name issued.1) p.drafts
        changed := true
        journal }) := by
  intro issued
  refine ⟨(prepare options a head p).2.journal, ?_⟩
  simp only [turn, h, prepare]
  rw [Progress.noteAll_eq]
  rfl

variable (queue) in
/-- Factoring once under a limit that is high enough is the turn. -/
theorem step_prepare_eq_ok_iff (h : sharedHead? a p.drafts = some head) {limit : Nat} :
    step { options with limit } a head (prepare { options with limit } a head p) = .ok q ↔
      (turn options (a :: queue, p)).2.drafts.length ≤ limit ∧
        turn options (a :: queue, p) = (a :: queue ++ [(p.introduce options a).1], q) := by
  simp only [turn, h, Prod.mk.injEq]
  rw [step, Progress.submit_eq_ok_iff]
  exact and_congr_right fun _ => ⟨fun heq => ⟨rfl, heq.symm⟩, fun heq => heq.2.symm⟩

/-- **A turn factors nothing, or it makes the list of drafts longer by exactly one.** -/
theorem length_drafts_turn (options : Options) (state : Worklist) :
    (turn options state).2 = state.2 ∨
      ∃ helper, (turn options state).2.helpers = state.2.helpers ++ [helper] ∧
        (turn options state).2.drafts.length = state.2.drafts.length + 1 := by
  obtain ⟨_ | ⟨a, queue⟩, p⟩ := state
  · exact .inl rfl
  · cases hshared : sharedHead? a p.drafts with
    | none =>
        rw [turn_of_done hshared]
        exact .inl rfl
    | some head =>
        obtain ⟨journal, heq⟩ := exists_turn_of_shared options queue hshared
        rw [heq]
        exact .inr ⟨_, rfl, length_merge (any_isMember_of_sharedHead? hshared)⟩

theorem length_drafts_le_iterate_turn (options : Options) (state : Worklist) (n : Nat) :
    state.2.drafts.length ≤ ((turn options)^[n] state).2.drafts.length := by
  induction n generalizing state with
  | zero => exact Nat.le_refl _
  | succ n ih =>
      refine Nat.le_trans ?_ (ih (turn options state))
      rcases length_drafts_turn options state with heq | ⟨helper, -, hlength⟩
      · exact Nat.le_of_eq (by rw [heq])
      · omega

/-! ## Factoring under a limit -/

/-- Turns that empty the queue are those of factoring, unless the limit is too low. -/
theorem factorAll_of_turns {limit n : Nat} (h : (turn options)^[n] (queue, p) = ([], q))
    (hlimit : q.drafts.length ≤ limit) : factorAll { options with limit } p queue = .ok q := by
  induction n generalizing queue p with
  | zero =>
      obtain ⟨rfl, rfl⟩ := Prod.mk.inj h
      exact factorAll_nil
  | succ n ih =>
      cases queue with
      | nil =>
          refine ih ?_
          rw [Function.iterate_succ_apply] at h
          exact h
      | cons a queue =>
          rw [Function.iterate_succ_apply] at h
          cases hshared : sharedHead? a p.drafts with
          | none =>
              rw [turn_of_done hshared] at h
              rw [factorAll_of_done hshared]
              exact ih h
          | some head =>
              obtain ⟨journal, heq⟩ :=
                exists_turn_of_shared options queue hshared
              -- The list only grows, so the limit that the last one meets is met by this one.
              have hle : (turn options (a :: queue, p)).2.drafts.length ≤ limit := by
                refine Nat.le_trans ?_ hlimit
                have hrest := length_drafts_le_iterate_turn options (turn options (a :: queue, p)) n
                rw [h] at hrest
                exact hrest
              have hstep := (step_prepare_eq_ok_iff queue hshared).mpr ⟨hle, heq⟩
              rw [heq] at h
              rw [factorAll_of_shared hshared, hstep]
              exact ih h

/-- Factoring that succeeds under its limit made turns until the queue was empty. -/
theorem exists_turns_of_factorAll (h : factorAll options p queue = .ok q) :
    ∃ n, (turn options)^[n] (queue, p) = ([], q) := by
  fun_induction factorAll options p queue with
  | case1 p => exact ⟨0, congrArg (Prod.mk []) (Except.ok.inj h)⟩
  | case2 p a queue hshared ih =>
      obtain ⟨n, hn⟩ := ih h
      exact ⟨n + 1, by rw [Function.iterate_succ_apply, turn_of_done hshared, hn]⟩
  | case3 => cases h
  | case4 p a queue head hshared prepared r hr ih =>
      obtain ⟨n, hn⟩ := ih h
      have hturn := ((step_prepare_eq_ok_iff queue hshared).mp hr).2
      exact ⟨n + 1, by rw [Function.iterate_succ_apply, hturn]; exact hn⟩

/-! ## What the turns keep -/

/-- The helpers were paid for by overlap, and each of them made the list longer by one. -/
structure Bounded (g : Grammar) (p : Progress) : Prop where
  tracks : p.Tracks g
  helpers : p.helpers.length + overlap (rulesOf p.drafts) ≤ overlap g.system.rules
  length : p.drafts.length = g.productions.length + p.helpers.length

theorem Bounded.start (hg : g.WellFormed) : Bounded g (.start g #[]) where
  tracks := .start hg #[]
  helpers := by
    rw [rules_eq_rulesOf]
    exact Nat.le_of_eq (Nat.zero_add _)
  length := List.length_map _

theorem Bounded.merge (h : Bounded g p) (hshared : sharedHead? a p.drafts = some head)
    (journal : Array Event) :
    let issued := p.introduce options a
    Bounded g { issued.2 with
      drafts := merge a head issued.1 (issued.2.name issued.1) p.drafts
      changed := true
      journal } := by
  intro issued
  let drafts := Factoring.merge a head issued.1 (issued.2.name issued.1) p.drafts
  have hsmaller : overlap (rulesOf drafts) < overlap (rulesOf p.drafts) :=
    overlap_merge_lt _ hshared fun r hr => (h.tracks.fresh options a r hr).1
  have hlonger : drafts.length = p.drafts.length + 1 :=
    length_merge (any_isMember_of_sharedHead? hshared)
  have hissued : issued.2.helpers.length = p.helpers.length + 1 := List.length_append
  obtain ⟨htracks, hhelpers, hlength⟩ := h
  refine ⟨tracks_merge htracks hshared journal, ?_, ?_⟩
  · show issued.2.helpers.length + overlap (rulesOf drafts) ≤ _
    omega
  · show drafts.length = _ + issued.2.helpers.length
    omega

theorem bounded_turn (h : Bounded g state.2) (options : Options) :
    Bounded g (turn options state).2 := by
  obtain ⟨_ | ⟨a, queue⟩, p⟩ := state
  · exact h
  · cases hshared : sharedHead? a p.drafts with
    | none =>
        rw [turn_of_done hshared]
        exact h
    | some head =>
        obtain ⟨journal, heq⟩ := exists_turn_of_shared options queue hshared
        rw [heq]
        exact Bounded.merge h hshared journal

theorem bounded_iterate_turn (options : Options) (state : Worklist) (h : Bounded g state.2)
    (n : Nat) : Bounded g ((turn options)^[n] state).2 := by
  induction n generalizing state with
  | zero => exact h
  | succ n ih => exact ih _ (bounded_turn h options)

/-! ## The turns come to an end -/

variable (options) in
/-- **A turn takes potential away**, as long as the queue is not empty. -/
theorem potential_turn_lt (h : state.2.Tracks g) (hqueue : state.1 ≠ []) :
    potential (turn options state) < potential state := by
  obtain ⟨_ | ⟨a, queue⟩, p⟩ := state
  · exact absurd rfl hqueue
  · cases hshared : sharedHead? a p.drafts with
    | none =>
        rw [turn_of_done hshared]
        exact Nat.lt_succ_self _
    | some head =>
        obtain ⟨journal, heq⟩ := exists_turn_of_shared options queue hshared
        rw [heq]
        change p.Tracks g at h
        have hsmaller := overlap_merge_lt ((p.introduce options a).2.name (p.introduce options a).1)
          hshared fun r hr => (h.fresh options a r hr).1
        simp only [potential, List.length_append, List.length_cons, List.length_nil]
        omega

/-- So many turns empty the queue, and more of them do nothing. -/
theorem iterate_turn_of_potential (h : Bounded g state.2) {n : Nat} (hn : potential state ≤ n) :
    ((turn options)^[n] state).1 = [] := by
  induction n generalizing state with
  | zero =>
      refine List.eq_nil_of_length_eq_zero ?_
      unfold potential at hn
      exact Nat.eq_zero_of_add_eq_zero_left (Nat.le_zero.mp hn)
  | succ n ih =>
      by_cases hqueue : state.1 = []
      · have hfixed : turn options state = state := by
          obtain ⟨queue, p⟩ := state
          rw [show queue = [] from hqueue, turn]
        rw [Function.iterate_fixed hfixed]
        exact hqueue
      · have hlt := potential_turn_lt options h.tracks hqueue
        exact ih (bounded_turn h options) (by omega)

variable (options) in
/-- The turns arrive at one progress with an empty queue and stay there. -/
theorem exists_end_of_turns (hg : g.WellFormed) : ∃ p, Bounded g p ∧
    ∀ n, 2 * overlap g.system.rules + g.symbols.nonterminals.length ≤ n →
      (turn options)^[n] (g.symbols.nonterminals, .start g #[]) = ([], p) := by
  let start : Worklist := (g.symbols.nonterminals, .start g #[])
  have hstart : Bounded g start.2 := Bounded.start hg
  have hpotential : potential start =
      2 * overlap g.system.rules + g.symbols.nonterminals.length := by
    rw [rules_eq_rulesOf]
    rfl
  rw [← hpotential]
  refine ⟨((turn options)^[potential start] start).2,
    bounded_iterate_turn options start hstart _, fun n hn => ?_⟩
  have hend : (turn options)^[potential start] start =
      ([], ((turn options)^[potential start] start).2) :=
    Prod.ext (iterate_turn_of_potential hstart (Nat.le_refl _)) rfl
  obtain ⟨k, rfl⟩ := Nat.exists_eq_add_of_le' hn
  rw [Function.iterate_add_apply, hend]
  exact Function.iterate_fixed rfl k

/-- **Left-factoring ends without help from the limit.** Without a limit, the queue is empty after
twice as many turns as there is overlap and one for each nonterminal, and every limit from the
length of the drafts on gives what was arrived at there. A turn that factors makes the list longer
by exactly one. And under any limit, a success has no more helpers than there was overlap between
the alternatives, and as many new productions as helpers. -/
theorem ends_leftFactor (hg : g.Reachable) (options : Options) :
    (∃ p : Progress,
      (∀ n, 2 * overlap g.system.rules + g.symbols.nonterminals.length ≤ n →
        (turn options)^[n] (g.symbols.nonterminals, .start g #[]) = ([], p)) ∧
      ∀ limit, p.drafts.length ≤ limit →
        factorAll { options with limit } (.start g #[]) g.symbols.nonterminals = .ok p ∧
          (g.leftFactor { options with limit }).result = .ok p.helpers) ∧
    (∀ state : Worklist, (turn options state).2 = state.2 ∨
      ∃ helper, (turn options state).2.helpers = state.2.helpers ++ [helper] ∧
        (turn options state).2.drafts.length = state.2.drafts.length + 1) ∧
    ∀ helpers, (g.leftFactor options).result = .ok helpers →
      helpers.length ≤ overlap g.system.rules ∧
        (g.leftFactor options).grammar.productions.length =
          g.productions.length + helpers.length := by
  have hwf := hg.wellFormed
  refine ⟨?_, length_drafts_turn options, fun helpers hok => ?_⟩
  · obtain ⟨p, hp, hturns⟩ := exists_end_of_turns options hwf
    refine ⟨p, hturns, fun limit hlimit => ?_⟩
    have hrun := factorAll_of_turns (hturns _ (Nat.le_refl _)) hlimit
    refine ⟨hrun, ?_⟩
    rw [Grammar.leftFactor, hrun]
    exact (hp.tracks.commit_eq hwf).1
  · obtain ⟨p, hp, htracks, rfl, heq⟩ := exists_tracks_of_ok hwf hok
    obtain ⟨n, hn⟩ := exists_turns_of_factorAll hp
    have hbounded := bounded_iterate_turn options (g.symbols.nonterminals, .start g #[])
      (Bounded.start hwf) n
    rw [hn] at hbounded
    rw [heq, length_productions_commit htracks hwf, hbounded.length]
    exact ⟨Nat.le_trans (Nat.le_add_right _ _) hbounded.helpers, rfl⟩

/-- Two alternatives of the sample share one symbol, so four turns at the most leave a factored
list of drafts, for which the sample gets one helper. -/
theorem ends_leftFactor_sample :
    overlap Grammar.sample.system.rules = 1 ∧
      (∃ p : Progress, (turn {})^[3] (Grammar.sample.symbols.nonterminals,
        .start Grammar.sample #[]) = ([], p)) ∧
      (Grammar.sample.leftFactor {}).grammar.productions.length = 4 := by
  have hok := Grammar.leftFactor_sample
  have hoverlap : overlap Grammar.sample.system.rules = 1 := by decide +kernel
  obtain ⟨⟨p, hturns, -⟩, -, hbounds⟩ := ends_leftFactor Grammar.reachable_sample {}
  refine ⟨hoverlap, ⟨p, hturns 3 ?_⟩, (hbounds _ hok).2⟩
  rw [hoverlap]
  decide

end TopDown.Transform.Factoring
