import TopDown.Proofs.Derivation
import Mathlib.Computability.Language

/-!
# Spelled strings

`Spells` is derivation told by trees: the occurrences of a sentential form are expanded one after
another, each down to leaves. It is the form in which two lists of rules are compared.

* `spells_iff`: spelling is deriving a string of leaves.
* `Spells.of_admissible`: if the other rules spell whatever a rule spells, in one step down, they
  spell everything.
* `Spells.reads`: spelling is the least reading of symbols that is closed under the rules; with a
  reading of its own for a helper symbol this bounds what rules with a helper spell.
-/

namespace TopDown

open Relation

variable {rules rules' : List Rule} {leaf : Symbol → Prop} {s : Symbol} {γ δ u v w : List Symbol}

/-- The rules expand a sentential form, from left to right, to a string of leaves. -/
inductive Spells (rules : List Rule) (leaf : Symbol → Prop) : List Symbol → List Symbol → Prop
  | nil : Spells rules leaf [] []
  | leaf {s : Symbol} {γ w : List Symbol} (h : leaf s) (rest : Spells rules leaf γ w) :
      Spells rules leaf (s :: γ) (s :: w)
  | rule {r : Rule} {γ u v : List Symbol} (h : r ∈ rules) (below : Spells rules leaf r.rhs u)
      (rest : Spells rules leaf γ v) : Spells rules leaf (r.lhs :: γ) (u ++ v)

/-! ## Splitting and joining -/

@[simp]
theorem spells_nil_iff : Spells rules leaf [] w ↔ w = [] := by
  constructor
  · rintro ⟨⟩
    rfl
  · rintro rfl
    exact .nil

theorem Spells.append (hγ : Spells rules leaf γ u) (hδ : Spells rules leaf δ v) :
    Spells rules leaf (γ ++ δ) (u ++ v) := by
  induction hγ with
  | nil => exact hδ
  | leaf h _ ih => exact .leaf h ih
  | rule h below _ _ ih =>
      rw [List.append_assoc]
      exact .rule h below ih

theorem Spells.of_mem {r : Rule} (h : r ∈ rules) (below : Spells rules leaf r.rhs w) :
    Spells rules leaf [r.lhs] w := by
  simpa using Spells.rule h below .nil

theorem spells_cons_iff :
    Spells rules leaf (s :: γ) w ↔
      ∃ u v, w = u ++ v ∧ Spells rules leaf [s] u ∧ Spells rules leaf γ v := by
  constructor
  · intro h
    cases h with
    | @leaf _ _ v h rest => exact ⟨[s], v, rfl, .leaf h .nil, rest⟩
    | @rule r _ u v h below rest => exact ⟨u, v, rfl, .of_mem h below, rest⟩
  · rintro ⟨u, v, rfl, hu, hv⟩
    exact hu.append hv

theorem spells_append_iff :
    Spells rules leaf (γ ++ δ) w ↔
      ∃ u v, w = u ++ v ∧ Spells rules leaf γ u ∧ Spells rules leaf δ v := by
  constructor
  · intro h
    induction γ generalizing w with
    | nil => exact ⟨[], w, rfl, .nil, h⟩
    | cons s γ ih =>
        obtain ⟨u, v, rfl, hs, hv⟩ := spells_cons_iff.mp h
        obtain ⟨u', v', rfl, hγ, hδ⟩ := ih hv
        exact ⟨u ++ u', v', by simp, hs.append hγ, hδ⟩
  · rintro ⟨u, v, rfl, hu, hv⟩
    exact hu.append hv

/-- A symbol that is no leaf is expanded by one of its rules. -/
theorem Spells.rule_of_not_leaf (h : Spells rules leaf [s] w) (hs : ¬leaf s) :
    ∃ r ∈ rules, r.lhs = s ∧ Spells rules leaf r.rhs w := by
  cases h with
  | leaf h _ => exact absurd h hs
  | @rule r _ u v h below rest =>
      rw [spells_nil_iff.mp rest, List.append_nil]
      exact ⟨r, h, rfl, below⟩

/-! ## Spelling and deriving -/

theorem Spells.derives (h : Spells rules leaf γ w) : Derives rules γ w ∧ ∀ s ∈ w, leaf s := by
  induction h with
  | nil => exact ⟨.refl, by simp⟩
  | @leaf s γ w h _ ih =>
      refine ⟨Derives.append (u := [s]) .refl ih.1, ?_⟩
      simpa [h] using ih.2
  | @rule r γ u v h _ _ ihb ihr =>
      have hr : Derives rules [r.lhs] u := ihb.1.head (.of_mem h)
      refine ⟨hr.append ihr.1, ?_⟩
      intro s hs
      exact (List.mem_append.mp hs).elim (ihb.2 s) (ihr.2 s)

theorem Spells.refl (h : ∀ s ∈ w, leaf s) : Spells rules leaf w w := by
  induction w with
  | nil => exact .nil
  | cons s w ih => exact .leaf (h s List.mem_cons_self) (ih fun t ht => h t (by simp [ht]))

theorem Spells.of_yields (hstep : Yields rules γ δ) (h : Spells rules leaf δ w) :
    Spells rules leaf γ w := by
  obtain ⟨r, hr, l, t, rfl, rfl⟩ := hstep
  rw [List.append_assoc] at h
  obtain ⟨u, v, rfl, hl, h⟩ := spells_append_iff.mp h
  obtain ⟨v, x, rfl, hrhs, ht⟩ := spells_append_iff.mp h
  exact hl.append (.rule hr hrhs ht)

/-- **Spelling is deriving a string of leaves.** -/
theorem spells_iff : Spells rules leaf γ w ↔ Derives rules γ w ∧ ∀ s ∈ w, leaf s := by
  constructor
  · exact Spells.derives
  · rintro ⟨h, hw⟩
    induction h using ReflTransGen.head_induction_on with
    | refl => exact .refl hw
    | head hstep _ ih => exact ih.of_yields hstep

/-! ## Comparing two lists of rules -/

/-- If every rule is admissible for other rules, these spell whatever the rules spell. -/
theorem Spells.of_admissible
    (admissible : ∀ r ∈ rules, ∀ w, Spells rules' leaf r.rhs w → Spells rules' leaf [r.lhs] w)
    (h : Spells rules leaf γ w) : Spells rules' leaf γ w := by
  induction h with
  | nil => exact .nil
  | leaf h _ ih => exact .leaf h ih
  | rule h _ _ ihb ihr => exact (admissible _ h _ ihb).append ihr

/-- A sentential form reads as a string if its symbols, one after another, are read as given. -/
def Reads (S : Symbol → List Symbol → Prop) : List Symbol → List Symbol → Prop
  | [], w => w = []
  | s :: γ, w => ∃ u v, w = u ++ v ∧ S s u ∧ Reads S γ v

/-- **The least reading.** Spelled strings belong to every reading that is closed under the
rules and reads leaves as themselves. -/
theorem Spells.reads {S : Symbol → List Symbol → Prop} (hleaf : ∀ s, leaf s → S s [s])
    (hrule : ∀ r ∈ rules, ∀ w, Reads S r.rhs w → S r.lhs w) (h : Spells rules leaf γ w) :
    Reads S γ w := by
  induction h with
  | nil => rfl
  | @leaf s _ w h _ ih => exact ⟨[s], w, rfl, hleaf s h, ih⟩
  | rule h _ _ ihb ihr => exact ⟨_, _, rfl, hrule _ h _ ihb, ihr⟩

theorem reads_append_iff {S : Symbol → List Symbol → Prop} :
    Reads S (γ ++ δ) w ↔ ∃ u v, w = u ++ v ∧ Reads S γ u ∧ Reads S δ v := by
  induction γ generalizing w with
  | nil => simp [Reads]
  | cons s γ ih =>
      simp only [List.cons_append, Reads, ih]
      constructor
      · rintro ⟨u, _, rfl, hs, u', v, rfl, hγ, hδ⟩
        exact ⟨u ++ u', v, by simp, ⟨u, u', rfl, hs, hγ⟩, hδ⟩
      · rintro ⟨_, v, rfl, ⟨u, u', rfl, hs, hγ⟩, hδ⟩
        exact ⟨u, u' ++ v, by simp, hs, u', v, rfl, hγ, hδ⟩

@[simp]
theorem reads_singleton {S : Symbol → List Symbol → Prop} : Reads S [s] w ↔ S s w := by
  simp [Reads]

/-- The reading of symbols that rules spell, but for a helper, which is read as given. -/
def readingWith (rules : List Rule) (leaf : Symbol → Prop) (helper : Symbol)
    (H : List Symbol → Prop) (s : Symbol) (w : List Symbol) : Prop :=
  if s = helper then H w else Spells rules leaf [s] w

theorem reads_of_not_mem {helper : Symbol} {H : List Symbol → Prop} (h : helper ∉ γ) :
    Reads (readingWith rules leaf helper H) γ w ↔ Spells rules leaf γ w := by
  induction γ generalizing w with
  | nil => simp [Reads]
  | cons s γ ih =>
      rw [List.mem_cons, not_or] at h
      rw [spells_cons_iff]
      simp only [Reads, ih h.2, readingWith, if_neg (Ne.symm h.1)]

/-- What rules with a helper spell without mentioning it is spelled by other rules, if some
reading of the helper makes every rule with it admissible for them. -/
theorem Spells.of_reading {helper : Symbol} {H : List Symbol → Prop} (hhelper : ¬leaf helper)
    (hrule : ∀ r ∈ rules, ∀ w, Reads (readingWith rules' leaf helper H) r.rhs w →
      readingWith rules' leaf helper H r.lhs w)
    (hγ : helper ∉ γ) (h : Spells rules leaf γ w) : Spells rules' leaf γ w := by
  refine (reads_of_not_mem hγ).mp (h.reads ?_ hrule)
  intro s hs
  have hne : s ≠ helper := fun heq => hhelper (heq ▸ hs)
  rw [readingWith, if_neg hne]
  exact .leaf hs .nil

/-- The language of a symbol: the strings of leaves that it derives. -/
def languageOf (rules : List Rule) (leaf : Symbol → Prop) (a : Symbol) : Language Symbol :=
  {w | Derives rules [a] w ∧ ∀ s ∈ w, leaf s}

theorem mem_languageOf {a : Symbol} : w ∈ languageOf rules leaf a ↔ Spells rules leaf [a] w :=
  spells_iff.symm

end TopDown
