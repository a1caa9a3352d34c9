import Mathlib.Logic.Equiv.Basic
import TopDown.Proofs.Cloning.Isolation

/-!
# What a clone does

A clone goes through the same states as its original, with the same responses, as long as both are
given the same operations; handles are translated, those included that are issued after the clone
was made. Each of the two turns the handles of the other away, whatever has been done to it.

* `run_along` is the step: one operation under other identities. `runAll_along` is the run.
* `clone_bisimulates`: the two results.
-/

namespace TopDown

namespace Correspondence

/-- Puts handles of the target in the place of those of the source, and the other way round. -/
def exchange (m : Correspondence) : Translation := .along (Equiv.swap m.source m.target)

variable {m : Correspondence} {s : Symbol} {i : Production.Id}

theorem symbol?_eq_exchange (hs : s.owner = m.source) :
    m.symbol? s = some (m.exchange.symbol s) := by
  have howner : Equiv.swap m.source m.target s.owner = m.target := by
    rw [hs, Equiv.swap_apply_left]
  rw [symbol?, if_pos hs]
  exact congrArg (fun owner => some (s.rebind owner)) howner.symm

theorem production?_eq_exchange (hi : i.owner = m.source) :
    m.production? i = some (m.exchange.id i) := by
  have howner : Equiv.swap m.source m.target i.owner = m.target := by
    rw [hi, Equiv.swap_apply_left]
  rw [production?, if_pos hi]
  exact congrArg (fun owner => some (i.rebind owner)) howner.symm

end Correspondence

namespace Grammar

open Translation

variable {σ : Equiv.Perm Identity} {g : Grammar} {id : Identity}

/-! ## One operation -/

theorem run_along (hg : g.WellFormed) (op : Operation) :
    ((along σ).operation op).run ((along σ).grammar g) =
      ((along σ).grammar (op.run g).1, (along σ).response (op.run g).2) := by
  cases op with
  | edit e =>
      have happly := @apply_along σ g e
      exact congrArg (fun p => (p.1, Response.reply p.2)) happly
  | query q =>
      exact congrArg (fun a => ((along σ).grammar g, Response.answer a)) (query_along hg q)

theorem Reachable.run (hg : g.Reachable) (op : Operation) : (op.run g).1.Reachable := by
  cases op with
  | edit e => exact hg.edited e
  | query q => exact hg

theorem id_run (hg : g.Reachable) (op : Operation) : (op.run g).1.id = g.id := by
  cases op with
  | edit e =>
      obtain ⟨_, hissues⟩ := issues_apply hg.wellFormed e
      exact hissues.id
  | query q => rfl

/-! ## Operations in turn -/

theorem Reachable.runAll (hg : g.Reachable) (ops : List Operation) :
    (Operation.runAll g ops).1.Reachable ∧ (Operation.runAll g ops).1.id = g.id := by
  induction ops generalizing g with
  | nil => exact ⟨hg, rfl⟩
  | cons op ops ih =>
      obtain ⟨hreachable, hid⟩ := ih (hg.run op)
      exact ⟨hreachable, hid.trans (id_run hg op)⟩

theorem runAll_along (hg : g.Reachable) (ops : List Operation) :
    Operation.runAll ((along σ).grammar g) (ops.map (along σ).operation) =
      ((along σ).grammar (Operation.runAll g ops).1,
        (Operation.runAll g ops).2.map (along σ).response) := by
  induction ops generalizing g with
  | nil => rfl
  | cons op ops ih =>
      rw [List.map_cons, Operation.runAll, Operation.runAll, run_along hg.wellFormed]
      dsimp only
      rw [ih (hg.run op)]
      rfl

/-- After any operations a grammar turns the handles of other owners away. -/
theorem turnsAway_runAll (hg : g.Reachable) {owner : Identity} (howner : owner ≠ g.id)
    (ops : List Operation) : TurnsAway owner (Operation.runAll g ops).1 := by
  obtain ⟨hreachable, hid⟩ := hg.runAll ops
  have hne : owner ≠ (Operation.runAll g ops).1.id := hid ▸ howner
  exact ⟨edit_of_mentions hne hreachable.wellFormed, query_of_mentions hne hreachable.wellFormed⟩

/-- **A clone does what its original does, and is apart from it.** Operations with translated
handles have translated responses and lead to the clone of the grammar that the operations lead to;
the pieces in a response make up the text that is shown. Neither grammar accepts a handle of the
other, whatever has been done to it. -/
theorem clone_bisimulates (hg : g.Reachable) (hid : id ≠ g.id) :
    let m : Correspondence := ⟨g.id, id⟩
    (∀ s : Symbol, s.owner = g.id → m.symbol? s = some (m.exchange.symbol s)) ∧
    (∀ i : Production.Id, i.owner = g.id → m.production? i = some (m.exchange.id i)) ∧
    (∀ ops, Operation.runAll (g.clone id) (ops.map m.exchange.operation) =
      ((Operation.runAll g ops).1.clone id,
        (Operation.runAll g ops).2.map m.exchange.response)) ∧
    (∀ (f : Grammar) (r : Rule), (f.display r.lhs).text = f.displayName r.lhs ∧
      String.join ((f.rulePieces r).map Piece.text) = f.ruleText r) ∧
    (∀ ops, TurnsAway id (Operation.runAll g ops).1) ∧
    ∀ ops, TurnsAway g.id (Operation.runAll (g.clone id) ops).1 := by
  intro m
  have hclone : ∀ f : Grammar, f.Reachable → f.id = g.id → m.exchange.grammar f = f.clone id := by
    intro f hf heq
    have halong := @grammar_along_eq_clone (Equiv.swap g.id id) f hf.wellFormed
    rw [heq, Equiv.swap_apply_left] at halong
    exact halong
  refine ⟨fun s hs => m.symbol?_eq_exchange hs, fun i hi => m.production?_eq_exchange hi,
    fun ops => ?_, fun f r => ⟨f.text_display r.lhs, f.join_rulePieces r⟩,
    turnsAway_runAll hg hid, turnsAway_runAll (hg.cloned id) hid.symm⟩
  obtain ⟨hreachable, heq⟩ := hg.runAll ops
  rw [← hclone g hg rfl, ← hclone _ hreachable heq]
  exact runAll_along hg ops

/-- A clone of the sample grammar issues its own symbols and refuses those of the sample. -/
theorem clone_bisimulates_sample :
    sample.Reachable ∧ (⟨2⟩ : Identity) ≠ sample.id ∧
      (Operation.runAll (sample.clone ⟨2⟩)
        [.edit (.addSymbol .terminal "c"), .edit (.eraseSymbol ⟨⟨2⟩, 3⟩),
          .query (.displayName ⟨⟨2⟩, 3⟩), .edit (.setStart ⟨⟨2⟩, 3⟩)]).2 =
        [.reply (.symbol ⟨⟨2⟩, 3⟩), .reply (.erased true), .answer (.pieces [.handle ⟨⟨2⟩, 3⟩]),
          .reply (.refused (.removedSymbol ⟨⟨2⟩, 3⟩))] ∧
      ∃ reply, (Edit.setStart ⟨⟨1⟩, 0⟩).Rebuffed ⟨1⟩ reply ∧
        (Edit.setStart ⟨⟨1⟩, 0⟩).apply (sample.clone ⟨2⟩) = (sample.clone ⟨2⟩, reply) := by
  have hne : (⟨2⟩ : Identity) ≠ sample.id := by decide
  obtain ⟨-, -, hruns, -, -, haway⟩ := clone_bisimulates reachable_sample hne
  refine ⟨reachable_sample, hne, ?_, ?_⟩
  · have hrun := hruns [.edit (.addSymbol .terminal "c"), .edit (.eraseSymbol ⟨⟨1⟩, 3⟩),
      .query (.displayName ⟨⟨1⟩, 3⟩), .edit (.setStart ⟨⟨1⟩, 3⟩)]
    exact (congrArg Prod.snd hrun).trans (by decide +kernel)
  · let t : Translation := ⟨fun owner => owner, fun s => if s.owner = ⟨1⟩ then s.rebind ⟨2⟩ else s,
      fun i => if i.owner = ⟨1⟩ then i.rebind ⟨2⟩ else i⟩
    have ht : t.Spares ⟨1⟩ := ⟨fun _ hs => if_neg hs, fun _ hi => if_neg hi⟩
    have hdone : ((t.edit (.setStart ⟨⟨1⟩, 0⟩)).apply (sample.clone ⟨2⟩)).2 = .done := by
      decide +kernel
    obtain ⟨g', reply, hupto, hrebuffed, happly⟩ := (haway []).edit (.setStart ⟨⟨1⟩, 0⟩)
      (mentions_symbol_iff.mpr rfl) ⟨t, ht, fun cause heq => by cases hdone.symm.trans heq⟩
    cases hupto
    exact ⟨reply, hrebuffed, happly⟩

end Grammar

end TopDown
