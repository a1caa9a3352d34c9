import Mathlib.Data.List.Basic
import TopDown.Grammar.Chain

/-!
# Chains, step by step

A chain is told here by what its steps ask for, each after the steps before it: an alternative is
added for the left-hand side of the last `rule`, under the label that comes right before it or
under its ordinal.

* `currentLhs?`, `pendingLabel?`: the left-hand side and the label that some steps leave behind;
  `nextLabel` is the label of the alternative that comes next.
* `Grants before g step g'`, `Refuses before g step e`: what the grammar `g` answers to a step
  after the steps `before`; `GrantsAll` is a run of granted steps.
* `runChain_of_grants`, `runChain_of_refuses`: the step of a chain that runs. `runChain_append`:
  the run of its granted steps.
* `build_eq_none_iff`, `build_eq_some_iff`: a chain comes to its end exactly if every step is
  granted, and stops exactly at the first step that is refused, with what the steps before it did.
-/

namespace TopDown.Grammar

variable {g g' : Grammar} {before steps : List ChainStep} {step : ChainStep} {lhs : Symbol}
  {pending : Option String} {e : Error}

/-! ## What steps ask for -/

def ChainStep.lhs? : ChainStep → Option Symbol
  | .rule lhs => some lhs
  | _ => none

def ChainStep.label? : ChainStep → Option String
  | .label text => some text
  | _ => none

/-- The left-hand side of the last `rule` step. -/
def currentLhs? (before : List ChainStep) : Option Symbol := before.reverse.findSome? (·.lhs?)

/-- The label that is given last, if no alternative and no `rule` comes after it. -/
def pendingLabel? (before : List ChainStep) : Option String := before.getLast?.bind (·.label?)

/-- The label of the next alternative of a left-hand side: the one that is pending, or else the name
of the left-hand side with the ordinal of the alternative. -/
def nextLabel (before : List ChainStep) (g : Grammar) (lhs : Symbol) : String :=
  (pendingLabel? before).getD
    (g.displayName lhs ++ " #" ++ toString ((g.productionsOf lhs).length + 1))

/-- The grammar does what a step asks for after other steps. -/
inductive Grants (before : List ChainStep) (g : Grammar) : ChainStep → Grammar → Prop
  | rule {lhs : Symbol} (hlhs : g.nonterminalFault? lhs = none) : Grants before g (.rule lhs) g
  | label {label : String} : Grants before g (.label label) g
  | alternative {lhs : Symbol} {rhs : List Symbol} {id : Production.Id} {g' : Grammar}
      (hlhs : currentLhs? before = some lhs)
      (hadd : g.addProduction (nextLabel before g lhs) lhs rhs = .ok (id, g')) :
      Grants before g (.alternative rhs) g'

/-- The grammar refuses what a step asks for after other steps. -/
inductive Refuses (before : List ChainStep) (g : Grammar) : ChainStep → Error → Prop
  | rule {lhs : Symbol} {e : Error} (hlhs : g.nonterminalFault? lhs = some e) :
      Refuses before g (.rule lhs) e
  | alternative {lhs : Symbol} {rhs : List Symbol} {e : Error}
      (hlhs : currentLhs? before = some lhs)
      (hadd : g.addProduction (nextLabel before g lhs) lhs rhs = .error e) :
      Refuses before g (.alternative rhs) e

/-- The grammar does what some steps ask for, one after another, after other steps. -/
inductive GrantsAll : List ChainStep → Grammar → List ChainStep → Grammar → Prop
  | nil {before : List ChainStep} {g : Grammar} : GrantsAll before g [] g
  | cons {before steps : List ChainStep} {g g' g'' : Grammar} {step : ChainStep}
      (hstep : Grants before g step g') (hsteps : GrantsAll (before ++ [step]) g' steps g'') :
      GrantsAll before g (step :: steps) g''

/-! ## One step of a chain that runs -/

/-- A chain stands at a left-hand side with a pending label, as some steps left it. -/
structure Stands (before : List ChainStep) (lhs : Symbol) (pending : Option String) : Prop where
  lhs : currentLhs? before = some lhs
  pending : pendingLabel? before = pending

theorem currentLhs?_append_singleton (before : List ChainStep) (step : ChainStep) :
    currentLhs? (before ++ [step]) = step.lhs?.or (currentLhs? before) := by
  rw [currentLhs?, List.reverse_concat, List.findSome?_cons]
  cases step.lhs? <;> rfl

theorem pendingLabel?_append_singleton (before : List ChainStep) (step : ChainStep) :
    pendingLabel? (before ++ [step]) = step.label? := by
  rw [pendingLabel?, List.getLast?_concat, Option.bind_some]

theorem stands_rule (before : List ChainStep) (lhs : Symbol) :
    Stands (before ++ [.rule lhs]) lhs none :=
  ⟨currentLhs?_append_singleton .., pendingLabel?_append_singleton ..⟩

namespace Stands

theorem label (h : Stands before lhs pending) (label : String) :
    Stands (before ++ [.label label]) lhs (some label) :=
  ⟨(currentLhs?_append_singleton ..).trans h.lhs, pendingLabel?_append_singleton ..⟩

theorem alternative (h : Stands before lhs pending) (rhs : List Symbol) :
    Stands (before ++ [.alternative rhs]) lhs none :=
  ⟨(currentLhs?_append_singleton ..).trans h.lhs, pendingLabel?_append_singleton ..⟩

/-- A step that is granted takes a chain on to where the step leaves it. -/
theorem runChain_of_grants (h : Stands before lhs pending) (hstep : Grants before g step g') :
    ∃ lhs' pending', Stands (before ++ [step]) lhs' pending' ∧
      ∀ steps, g.runChain lhs pending (step :: steps) = g'.runChain lhs' pending' steps := by
  cases hstep with
  | rule hlhs =>
      refine ⟨_, none, stands_rule before _, fun steps => ?_⟩
      rw [runChain, hlhs]
  | label => exact ⟨lhs, _, h.label _, fun _ => rfl⟩
  | alternative hlhs hadd =>
      obtain rfl : _ = lhs := Option.some.inj (hlhs.symm.trans h.lhs)
      refine ⟨_, none, h.alternative _, fun steps => ?_⟩
      rw [nextLabel, h.pending] at hadd
      rw [runChain, defaultLabel, hadd]

/-- A step that is refused stops a chain. -/
theorem runChain_of_refuses (h : Stands before lhs pending) (hstep : Refuses before g step e)
    (steps : List ChainStep) : g.runChain lhs pending (step :: steps) = (g, some e) := by
  cases hstep with
  | rule hlhs => rw [runChain, hlhs]
  | alternative hlhs hadd =>
      obtain rfl : _ = lhs := Option.some.inj (hlhs.symm.trans h.lhs)
      rw [nextLabel, h.pending] at hadd
      rw [runChain, defaultLabel, hadd]

/-- Each step is either granted or refused. -/
theorem grants_or_refuses (h : Stands before lhs pending) (g : Grammar) (step : ChainStep) :
    (∃ g', Grants before g step g') ∨ ∃ e, Refuses before g step e := by
  cases step with
  | rule lhs =>
      cases hfault : g.nonterminalFault? lhs with
      | none => exact Or.inl ⟨g, .rule hfault⟩
      | some e => exact Or.inr ⟨e, .rule hfault⟩
  | label label => exact Or.inl ⟨g, .label⟩
  | alternative rhs =>
      cases hadd : g.addProduction (nextLabel before g lhs) lhs rhs with
      | ok added => exact Or.inl ⟨added.2, .alternative h.lhs hadd⟩
      | error e => exact Or.inr ⟨e, .alternative h.lhs hadd⟩

/-! ## A run -/

/-- Steps that are granted take a chain on to where they leave it. -/
theorem runChain_append (h : Stands before lhs pending) (hsteps : GrantsAll before g steps g') :
    ∃ lhs' pending', Stands (before ++ steps) lhs' pending' ∧
      ∀ rest, g.runChain lhs pending (steps ++ rest) = g'.runChain lhs' pending' rest := by
  induction hsteps generalizing lhs pending with
  | nil => exact ⟨lhs, pending, by rwa [List.append_nil], fun _ => rfl⟩
  | cons hstep hsteps ih =>
      obtain ⟨lhs', pending', hstands, hrun⟩ := h.runChain_of_grants hstep
      obtain ⟨lhs'', pending'', hstands', hrun'⟩ := ih hstands
      refine ⟨lhs'', pending'', by rwa [List.append_cons], fun rest => ?_⟩
      rw [List.cons_append, hrun, hrun']

/-- Of the steps of a chain either all are granted, or there is a first one that is refused. -/
theorem grantsAll_or_refuses (h : Stands before lhs pending) (g : Grammar)
    (steps : List ChainStep) : (∃ g', GrantsAll before g steps g') ∨
      ∃ taken step rest g' e, steps = taken ++ step :: rest ∧ GrantsAll before g taken g' ∧
        Refuses (before ++ taken) g' step e := by
  induction steps generalizing before lhs pending g with
  | nil => exact Or.inl ⟨g, .nil⟩
  | cons step steps ih =>
      rcases h.grants_or_refuses g step with ⟨g', hstep⟩ | ⟨e, hstep⟩
      · obtain ⟨lhs', pending', hstands, -⟩ := h.runChain_of_grants hstep
        rcases ih hstands g' with ⟨g'', hsteps⟩ | ⟨taken, s, rest, g'', e, rfl, htaken, hs⟩
        · exact Or.inl ⟨g'', .cons hstep hsteps⟩
        · exact Or.inr ⟨step :: taken, s, rest, g'', e, rfl, .cons hstep htaken,
            by rwa [List.append_cons]⟩
      · exact Or.inr ⟨[], step, steps, g, e, rfl, .nil, by rwa [List.append_nil]⟩

end Stands

/-! ## Whole chains -/

/-- What a chain comes to when all its steps are granted. -/
theorem build_of_grantsAll (h : GrantsAll [] g (.rule lhs :: steps) g') :
    g.build lhs steps = (g', none) := by
  cases h with
  | cons hstep hsteps =>
      cases hstep with
      | rule hlhs =>
          obtain ⟨lhs', pending', -, hrun⟩ := (stands_rule [] lhs).runChain_append hsteps
          have hend := hrun []
          rw [List.append_nil] at hend
          rw [build, runChain, hlhs]
          exact hend

/-- Where a chain stops when a step is refused. -/
theorem build_of_refuses {after : List ChainStep}
    (hsplit : .rule lhs :: steps = before ++ step :: after) (hbefore : GrantsAll [] g before g')
    (hstep : Refuses before g' step e) : g.build lhs steps = (g', some e) := by
  cases hbefore with
  | nil =>
      obtain ⟨rfl, -⟩ := List.cons.inj hsplit
      cases hstep with
      | rule hlhs => rw [build, runChain, hlhs]
  | cons hfirst hbefore =>
      obtain ⟨rfl, rfl⟩ := List.cons.inj hsplit
      cases hfirst with
      | rule hlhs =>
          obtain ⟨lhs', pending', hstands, hrun⟩ := (stands_rule [] lhs).runChain_append hbefore
          rw [build, runChain, hlhs]
          exact (hrun _).trans (hstands.runChain_of_refuses hstep _)

/-- A chain either has all its steps granted or stops at the first that is refused. -/
theorem grantsAll_or_refuses (g : Grammar) (lhs : Symbol) (steps : List ChainStep) :
    (∃ g', GrantsAll [] g (.rule lhs :: steps) g') ∨
      ∃ before step after g' e, .rule lhs :: steps = before ++ step :: after ∧
        GrantsAll [] g before g' ∧ Refuses before g' step e := by
  cases hfault : g.nonterminalFault? lhs with
  | some e => exact Or.inr ⟨[], .rule lhs, steps, g, e, rfl, .nil, .rule hfault⟩
  | none =>
      rcases (stands_rule [] lhs).grantsAll_or_refuses g steps with
        ⟨g', hsteps⟩ | ⟨taken, step, rest, g', e, rfl, htaken, hstep⟩
      · exact Or.inl ⟨g', .cons (.rule hfault) hsteps⟩
      · exact Or.inr ⟨.rule lhs :: taken, step, rest, g', e, rfl, .cons (.rule hfault) htaken,
          hstep⟩

/-- **A chain comes to its end** exactly if every step is granted, and then to the grammar that
the steps make. -/
theorem build_eq_none_iff :
    g.build lhs steps = (g', none) ↔ GrantsAll [] g (.rule lhs :: steps) g' := by
  refine ⟨fun hbuild => ?_, build_of_grantsAll⟩
  rcases grantsAll_or_refuses g lhs steps with ⟨g'', h⟩ | ⟨_, _, _, _, _, hsplit, hbefore, hstep⟩
  · obtain ⟨rfl, -⟩ := Prod.mk.inj ((build_of_grantsAll h).symm.trans hbuild)
    exact h
  · cases (build_of_refuses hsplit hbefore hstep).symm.trans hbuild

/-- **A chain stops** exactly at the first step that is refused, with the grammar that the steps
before it made. -/
theorem build_eq_some_iff : g.build lhs steps = (g', some e) ↔
    ∃ before step after, .rule lhs :: steps = before ++ step :: after ∧
      GrantsAll [] g before g' ∧ Refuses before g' step e := by
  refine ⟨fun hbuild => ?_, fun ⟨_, _, _, hsplit, hbefore, hstep⟩ =>
    build_of_refuses hsplit hbefore hstep⟩
  rcases grantsAll_or_refuses g lhs steps with
    ⟨g'', h⟩ | ⟨before, step, after, g'', e', hsplit, hbefore, hstep⟩
  · cases (build_of_grantsAll h).symm.trans hbuild
  · cases (build_of_refuses hsplit hbefore hstep).symm.trans hbuild
    exact ⟨before, step, after, hsplit, hbefore, hstep⟩

end TopDown.Grammar
