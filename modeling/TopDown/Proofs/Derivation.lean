import Mathlib.Logic.Relation
import TopDown.Rule

/-!
# Derivations

What a list of rules derives, told by sentential forms: a step replaces one occurrence of a
left-hand side. The analyses and the transformations are measured against this.

* `Vanishes` names the symbols that derive the empty string; `derives_nil_iff` is the bridge.
* `Leads` is one step down a right-hand side, from the left-hand side to a symbol in front of
  which everything vanishes and behind which a condition holds. Without a condition it is
  `Corner`; if everything behind vanishes too, it is `UnitStep`.
* `derivesPlus_cons_iff`, `derives_cons_iff`: the first symbols of derived strings are the ends
  of chains of corners. `derivesPlus_singleton_iff`: the symbols derived alone are the ends of
  chains of units.
* `Cyclic`, `LeftRecursive` and `Hides` are the kinds of recursion in these terms.
-/

namespace TopDown

open Relation

variable {rules : List Rule} {u v w : List Symbol} {a b : Symbol}

/-! ## Positions on a string -/

/-- A position on two strings in a row is on the first or behind it. -/
theorem split_append {α β : List Symbol} (hsplit : u ++ v = α ++ a :: β) :
    (∃ β', u = α ++ a :: β' ∧ β = β' ++ v) ∨ ∃ α', α = u ++ α' ∧ v = α' ++ a :: β := by
  rcases List.append_eq_append_iff.mp hsplit with ⟨α', hα, hv⟩ | ⟨u', hu, hv⟩
  · exact Or.inr ⟨α', hα, hv⟩
  · rcases List.cons_eq_append_iff.mp hv with ⟨rfl, hv⟩ | ⟨β', rfl, hβ⟩
    · exact Or.inr ⟨[], by simpa using hu.symm, hv.symm⟩
    · exact Or.inl ⟨β', hu, hβ⟩

theorem split_append_singleton {α β : List Symbol} (hsplit : u ++ [b] = α ++ a :: β) :
    (α = u ∧ a = b) ∨ ∃ β', u = α ++ a :: β' := by
  rcases split_append hsplit with ⟨β', hu, -⟩ | ⟨α', rfl, hend⟩
  · exact Or.inr ⟨β', hu⟩
  · rcases List.singleton_eq_append_iff.mp hend with ⟨rfl, hb⟩ | ⟨-, hnil⟩
    · exact Or.inl ⟨List.append_nil u, (List.cons_eq_cons.mp hb).1⟩
    · cases hnil

/-! ## Steps and derivations -/

/-- One step: an occurrence of a left-hand side gives way to the right-hand side. -/
def Yields (rules : List Rule) (u v : List Symbol) : Prop :=
  ∃ r ∈ rules, ∃ α γ, u = α ++ r.lhs :: γ ∧ v = α ++ r.rhs ++ γ

def Derives (rules : List Rule) : List Symbol → List Symbol → Prop := ReflTransGen (Yields rules)

def DerivesPlus (rules : List Rule) : List Symbol → List Symbol → Prop := TransGen (Yields rules)

theorem Yields.of_mem {r : Rule} (h : r ∈ rules) : Yields rules [r.lhs] r.rhs :=
  ⟨r, h, [], [], rfl, by simp⟩

theorem Yields.context (h : Yields rules u v) (x y : List Symbol) :
    Yields rules (x ++ u ++ y) (x ++ v ++ y) := by
  obtain ⟨r, hr, α, γ, rfl, rfl⟩ := h
  exact ⟨r, hr, x ++ α, γ ++ y, by simp, by simp⟩

theorem Derives.context (h : Derives rules u v) (x y : List Symbol) :
    Derives rules (x ++ u ++ y) (x ++ v ++ y) := by
  induction h with
  | refl => exact .refl
  | tail _ hstep ih => exact ih.tail (hstep.context x y)

theorem DerivesPlus.context (h : DerivesPlus rules u v) (x y : List Symbol) :
    DerivesPlus rules (x ++ u ++ y) (x ++ v ++ y) := by
  induction h with
  | single hstep => exact .single (hstep.context x y)
  | tail _ hstep ih => exact ih.tail (hstep.context x y)

theorem Derives.append {u' v' : List Symbol} (hu : Derives rules u u')
    (hv : Derives rules v v') : Derives rules (u ++ v) (u' ++ v') := by
  have h₁ : Derives rules (u ++ v) (u' ++ v) := hu.context [] v
  have h₂ : Derives rules (u' ++ v) (u' ++ v') := by simpa using hv.context u' []
  exact h₁.trans h₂

theorem DerivesPlus.of_mem {r : Rule} (h : r ∈ rules) : DerivesPlus rules [r.lhs] r.rhs :=
  .single (.of_mem h)

/-- A derivation from a single symbol starts with one of its rules. -/
theorem DerivesPlus.first_rule (h : DerivesPlus rules [a] w) :
    ∃ r ∈ rules, r.lhs = a ∧ Derives rules r.rhs w := by
  obtain ⟨v, ⟨r, hr, α, γ, hα, rfl⟩, hw⟩ := TransGen.head'_iff.mp h
  rcases List.singleton_eq_append_iff.mp hα with ⟨rfl, hα⟩ | ⟨-, hα⟩
  · obtain ⟨rfl, rfl⟩ := List.cons_eq_cons.mp hα
    refine ⟨r, hr, rfl, ?_⟩
    rwa [List.nil_append, List.append_nil] at hw
  · cases hα

theorem derivesPlus_iff : DerivesPlus rules [a] w ↔
    ∃ r ∈ rules, r.lhs = a ∧ Derives rules r.rhs w := by
  constructor
  · exact DerivesPlus.first_rule
  · rintro ⟨r, hr, rfl, h⟩
    exact (DerivesPlus.of_mem hr).trans_left h

/-- Symbols that no right-hand side has do not turn up. -/
theorem Derives.not_mem (h : Derives rules u v) (hrules : ∀ r ∈ rules, a ∉ r.rhs) (hu : a ∉ u) :
    a ∉ v := by
  induction h with
  | refl => exact hu
  | tail _ hstep ih =>
      obtain ⟨r, hr, α, γ, rfl, rfl⟩ := hstep
      simp only [List.mem_append, List.mem_cons, not_or] at ih ⊢
      exact ⟨⟨ih.1, hrules r hr⟩, ih.2.2⟩

/-! ## Vanishing symbols -/

/-- The symbols that some rule replaces by symbols that all vanish. -/
inductive Vanishes (rules : List Rule) : Symbol → Prop
  | rule {r : Rule} (mem : r ∈ rules) (all : ∀ s ∈ r.rhs, Vanishes rules s) : Vanishes rules r.lhs

def AllVanish (rules : List Rule) (u : List Symbol) : Prop := ∀ s ∈ u, Vanishes rules s

@[simp]
theorem allVanish_nil : AllVanish rules [] := by simp [AllVanish]

@[simp]
theorem allVanish_cons : AllVanish rules (a :: u) ↔ Vanishes rules a ∧ AllVanish rules u := by
  simp [AllVanish]

@[simp]
theorem allVanish_append : AllVanish rules (u ++ v) ↔ AllVanish rules u ∧ AllVanish rules v := by
  simp [AllVanish, or_imp, forall_and]

theorem Vanishes.of_mem {r : Rule} (h : r ∈ rules) (hrhs : AllVanish rules r.rhs) :
    Vanishes rules r.lhs :=
  .rule h hrhs

theorem AllVanish.of_yields (h : Yields rules u v) (hv : AllVanish rules v) :
    AllVanish rules u := by
  obtain ⟨r, hr, α, γ, rfl, rfl⟩ := h
  simp only [allVanish_append, allVanish_cons] at hv ⊢
  exact ⟨hv.1.1, .of_mem hr hv.1.2, hv.2⟩

theorem derives_nil_of_forall (h : ∀ s ∈ u, Derives rules [s] []) : Derives rules u [] := by
  induction u with
  | nil => exact .refl
  | cons s u ih =>
      have hs := h s List.mem_cons_self
      have hu := ih fun t ht => h t (List.mem_cons_of_mem _ ht)
      exact hs.append hu

theorem Vanishes.derives_nil (h : Vanishes rules a) : Derives rules [a] [] := by
  induction h with
  | rule mem _ ih => exact .head (.of_mem mem) (derives_nil_of_forall ih)

/-- **Vanishing is deriving the empty string.** -/
theorem derives_nil_iff : Derives rules u [] ↔ AllVanish rules u := by
  constructor
  · intro h
    induction h using ReflTransGen.head_induction_on with
    | refl => exact allVanish_nil
    | head hstep _ ih => exact ih.of_yields hstep
  · exact fun h => derives_nil_of_forall fun s hs => (h s hs).derives_nil

theorem vanishes_iff : Vanishes rules a ↔ Derives rules [a] [] := by
  simp [derives_nil_iff]

/-! ## Chains down right-hand sides -/

/-- A rule leads from its left-hand side to a symbol on its right-hand side if everything before
the symbol vanishes and what stands behind it meets a condition. -/
def Leads (tail : List Symbol → Prop) (rules : List Rule) (a b : Symbol) : Prop :=
  ∃ r ∈ rules, r.lhs = a ∧ ∃ α β, r.rhs = α ++ b :: β ∧ AllVanish rules α ∧ tail β

/-- `b` may come first in a string that a rule of `a` starts. -/
def Corner (rules : List Rule) : Symbol → Symbol → Prop := Leads (fun _ => True) rules

/-- A right-hand side of `a` starts with `b`. -/
def Fronts (rules : List Rule) (a b : Symbol) : Prop :=
  ∃ r ∈ rules, r.lhs = a ∧ r.rhs.head? = some b

/-- `b` may be all that is left of a right-hand side of `a`. -/
def UnitStep (rules : List Rule) : Symbol → Symbol → Prop := Leads (AllVanish rules) rules

/-- `u` has a symbol from which a chain leads to `b`; everything before the symbol vanishes, and
what stands behind it meets the condition. -/
def Exposes (tail : List Symbol → Prop) (rules : List Rule) (b : Symbol) (u : List Symbol) : Prop :=
  ∃ α y β, u = α ++ y :: β ∧ AllVanish rules α ∧ tail β ∧ ReflTransGen (Leads tail rules) y b

theorem Exposes.singleton {tail : List Symbol → Prop} (h : Exposes tail rules b [a]) :
    ReflTransGen (Leads tail rules) a b := by
  obtain ⟨α, y, β, hsplit, -, -, hy⟩ := h
  rcases List.singleton_eq_append_iff.mp hsplit with ⟨rfl, hα⟩ | ⟨-, hα⟩
  · obtain ⟨rfl, -⟩ := List.cons_eq_cons.mp hα
    exact hy
  · cases hα

section Exposure

variable {tail : List Symbol → Prop}
  (append : ∀ β γ, tail (β ++ γ) ↔ tail β ∧ tail γ)
  (back : ∀ u v, Yields rules u v → tail v → tail u)
include append back

/-- Exposure goes back over a step. -/
theorem Exposes.of_yields (hstep : Yields rules u v) (hv : Exposes tail rules b v) :
    Exposes tail rules b u := by
  obtain ⟨α, y, β, hsplit, hα, hβ, hy⟩ := hv
  obtain ⟨r, hr, l, t, rfl, rfl⟩ := hstep
  rw [List.append_assoc] at hsplit
  -- The exposed symbol stands before the right-hand side that was put in, on it, or behind it.
  rcases split_append hsplit with ⟨c, rfl, rfl⟩ | ⟨α', rfl, hrest⟩
  · refine ⟨α, y, c ++ r.lhs :: t, by simp, hα, ?_, hy⟩
    exact back _ _ ⟨r, hr, c, t, rfl, by simp⟩ hβ
  · obtain ⟨hl, hα'⟩ := allVanish_append.mp hα
    rcases split_append hrest with ⟨d, hrhs, rfl⟩ | ⟨c, rfl, rfl⟩
    · obtain ⟨hd, ht⟩ := (append d t).mp hβ
      exact ⟨l, r.lhs, t, rfl, hl, ht, .head ⟨r, hr, rfl, α', d, hrhs, hα', hd⟩ hy⟩
    · obtain ⟨hrhs, hc⟩ := allVanish_append.mp hα'
      refine ⟨l ++ r.lhs :: c, y, β, by simp, ?_, hβ, hy⟩
      simp only [allVanish_append, allVanish_cons]
      exact ⟨hl, .of_mem hr hrhs, hc⟩

theorem Exposes.of_derives (h : Derives rules u v) (hv : Exposes tail rules b v) :
    Exposes tail rules b u := by
  induction h using ReflTransGen.head_induction_on with
  | refl => exact hv
  | head hstep _ ih => exact ih.of_yields append back hstep

theorem Leads.of_derivesPlus (h : DerivesPlus rules [a] v) (hv : Exposes tail rules b v) :
    TransGen (Leads tail rules) a b := by
  obtain ⟨r, hr, rfl, hd⟩ := h.first_rule
  obtain ⟨α, y, β, hrhs, hα, hβ, hy⟩ := hv.of_derives append back hd
  exact TransGen.head' ⟨r, hr, rfl, α, β, hrhs, hα, hβ⟩ hy

end Exposure

theorem Corner.derivesPlus (h : Corner rules a b) : ∃ γ, DerivesPlus rules [a] (b :: γ) := by
  obtain ⟨r, hr, rfl, α, β, hrhs, hα, -⟩ := h
  have hstep : DerivesPlus rules [r.lhs] (α ++ b :: β) := hrhs ▸ .of_mem hr
  have hvanish : Derives rules (α ++ b :: β) (b :: β) :=
    (derives_nil_iff.mpr hα).append .refl
  exact ⟨β, hstep.trans_left hvanish⟩

theorem UnitStep.derivesPlus (h : UnitStep rules a b) : DerivesPlus rules [a] [b] := by
  obtain ⟨r, hr, rfl, α, β, hrhs, hα, hβ⟩ := h
  have hstep : DerivesPlus rules [r.lhs] (α ++ b :: β) := hrhs ▸ .of_mem hr
  have hbehind : Derives rules ([b] ++ β) ([b] ++ []) :=
    Derives.append .refl (derives_nil_iff.mpr hβ)
  have hvanish : Derives rules (α ++ b :: β) [b] :=
    (derives_nil_iff.mpr hα).append hbehind
  exact hstep.trans_left hvanish

theorem derivesPlus_of_corners (h : TransGen (Corner rules) a b) :
    ∃ γ, DerivesPlus rules [a] (b :: γ) := by
  induction h with
  | single h => exact h.derivesPlus
  | tail _ hstep ih =>
      obtain ⟨γ, hγ⟩ := ih
      obtain ⟨δ, hδ⟩ := hstep.derivesPlus
      exact ⟨δ ++ γ, hγ.trans (hδ.context [] γ)⟩

/-- **Left corners.** The symbols that come first in strings derived in one or more steps are
those at the end of a chain of corners. -/
theorem derivesPlus_cons_iff :
    (∃ γ, DerivesPlus rules [a] (b :: γ)) ↔ TransGen (Corner rules) a b := by
  constructor
  · rintro ⟨γ, h⟩
    refine Leads.of_derivesPlus (by simp) (fun _ _ _ => id) h ?_
    exact ⟨[], b, γ, rfl, allVanish_nil, trivial, .refl⟩
  · exact derivesPlus_of_corners

theorem derives_cons_iff :
    (∃ γ, Derives rules [a] (b :: γ)) ↔ ReflTransGen (Corner rules) a b := by
  constructor
  · rintro ⟨γ, h⟩
    refine Exposes.singleton (Exposes.of_derives (by simp) (fun _ _ _ => id) h ?_)
    exact ⟨[], b, γ, rfl, allVanish_nil, trivial, .refl⟩
  · intro h
    rcases reflTransGen_iff_eq_or_transGen.mp h with rfl | h
    · exact ⟨[], .refl⟩
    · obtain ⟨γ, hγ⟩ := derivesPlus_of_corners h
      exact ⟨γ, hγ.to_reflTransGen⟩

/-- **Unit derivations.** The symbols derived alone in one or more steps are those at the end of
a chain of units. -/
theorem derivesPlus_singleton_iff : DerivesPlus rules [a] [b] ↔ TransGen (UnitStep rules) a b := by
  constructor
  · intro h
    refine Leads.of_derivesPlus (fun _ _ => allVanish_append) (fun _ _ => .of_yields) h ?_
    exact ⟨[], b, [], rfl, allVanish_nil, allVanish_nil, .refl⟩
  · intro h
    induction h with
    | single h => exact UnitStep.derivesPlus h
    | tail _ hstep ih => exact ih.trans (UnitStep.derivesPlus hstep)

/-! ## Recursion -/

/-- The symbol derives itself alone. -/
def Cyclic (rules : List Rule) (a : Symbol) : Prop := DerivesPlus rules [a] [a]

/-- The symbol derives a string that starts with itself. -/
def LeftRecursive (rules : List Rule) (a : Symbol) : Prop := ∃ γ, DerivesPlus rules [a] (a :: γ)

/-- The rule hides left recursion: behind a beginning that is not empty and derives the empty
string stands a symbol that derives a string with the left-hand side in front. -/
def Hides (rules : List Rule) (r : Rule) : Prop :=
  ∃ α x β, r.rhs = α ++ x :: β ∧ α ≠ [] ∧ Derives rules α [] ∧
    ∃ γ, Derives rules [x] (r.lhs :: γ)

theorem leftRecursive_iff : LeftRecursive rules a ↔ TransGen (Corner rules) a a :=
  derivesPlus_cons_iff

theorem Cyclic.leftRecursive (h : Cyclic rules a) : LeftRecursive rules a := ⟨[], h⟩

theorem hides_iff {r : Rule} : Hides rules r ↔ ∃ α x β, r.rhs = α ++ x :: β ∧ α ≠ [] ∧
    AllVanish rules α ∧ ReflTransGen (Corner rules) x r.lhs := by
  simp only [Hides, derives_nil_iff, derives_cons_iff]

/-- Hidden left recursion is left recursion. -/
theorem Hides.leftRecursive {r : Rule} (hr : r ∈ rules) (h : Hides rules r) :
    LeftRecursive rules r.lhs := by
  obtain ⟨α, x, β, hsplit, -, hα, hx⟩ := hides_iff.mp h
  exact leftRecursive_iff.mpr (.head' ⟨r, hr, rfl, α, β, hsplit, hα, trivial⟩ hx)

end TopDown
