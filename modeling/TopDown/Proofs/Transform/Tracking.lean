import TopDown.Proofs.Grammar.Replacement
import TopDown.Proofs.Transform.Drafts

/-!
# Transformations on their way

A transformation that is under way has issued helpers and holds a list of drafts; all else in the
grammar is as it was at the start.

* `Meets` is what a step guarantees however it ends; it composes along binds and folds.
* `Progress.Tracks g p` says that `p` is a transformation of `g` under way: the symbol table is
  that of `g` with the helpers issued in turn, every draft is admitted, and no two drafts keep
  one origin.
* `Tracks.commit_eq`: drafts of a tracked progress are never refused by the grammar.
-/

namespace TopDown

/-! ## Issuing symbols in turn -/

namespace SymbolTable

variable {table : SymbolTable} {kind : Symbol.Kind} {names : List String} {s : Symbol}

theorem id_addAll : (table.addAll kind names).2.id = table.id := by
  induction names generalizing table with
  | nil => rfl
  | cons name names ih => exact @ih (table.add kind name).2

theorem size_add {name : String} : (table.add kind name).2.size = table.size + 1 := by
  simp [size, add]

theorem size_addAll : (table.addAll kind names).2.size = table.size + names.length := by
  induction names generalizing table with
  | nil => rfl
  | cons name names ih =>
      have htail := @ih (table.add kind name).2
      rw [size_add] at htail
      show ((table.add kind name).2.addAll kind names).2.size = _
      rw [htail, List.length_cons]
      omega

theorem length_addAll : (table.addAll kind names).1.length = names.length := by
  induction names generalizing table with
  | nil => rfl
  | cons name names ih => exact congrArg (· + 1) (@ih (table.add kind name).2)

theorem mem_addAll_iff : s ∈ (table.addAll kind names).1 ↔
    s.owner = table.id ∧ table.size ≤ s.index ∧ s.index < table.size + names.length := by
  induction names generalizing table with
  | nil =>
      show s ∈ [] ↔ _
      simp only [List.not_mem_nil, List.length_nil, false_iff]
      omega
  | cons name names ih =>
      show s ∈ ⟨table.id, table.size⟩ :: ((table.add kind name).2.addAll kind names).1 ↔ _
      rw [List.mem_cons, ih, size_add, List.length_cons]
      obtain ⟨owner, index⟩ := s
      simp only [Symbol.mk.injEq]
      show (owner = table.id ∧ index = table.size ∨ owner = table.id ∧ _) ↔ _
      rw [← and_or_left]
      exact and_congr_right fun _ => by omega

/-- Symbols that are issued in turn have consecutive indices. -/
theorem fst_addAll : (table.addAll kind names).1 =
    (List.range names.length).map fun i => ⟨table.id, table.size + i⟩ := by
  induction names generalizing table with
  | nil => rfl
  | cons name names ih =>
      show ⟨table.id, table.size⟩ :: ((table.add kind name).2.addAll kind names).1 = _
      rw [ih, size_add, List.length_cons, List.range_succ_eq_map, List.map_cons, List.map_map]
      refine congrArg (_ :: ·) (List.map_congr_left fun i _ => ?_)
      show (⟨table.id, table.size + 1 + i⟩ : Symbol) = ⟨table.id, table.size + (i + 1)⟩
      rw [Nat.add_assoc, Nat.add_comm 1 i]

theorem lookup?_addAll_of_lt (h : s.index < table.size) :
    (table.addAll kind names).2.lookup? s = table.lookup? s := by
  induction names generalizing table with
  | nil => rfl
  | cons name names ih =>
      have hlt : s.index < (table.add kind name).2.size := by
        rw [size_add]
        omega
      refine (@ih (table.add kind name).2 hlt).trans ?_
      rw [lookup?_add, if_neg]
      rintro rfl
      exact Nat.lt_irrefl _ h

theorem kind?_addAll_of_mem (h : s ∈ (table.addAll kind names).1) :
    (table.addAll kind names).2.kind? s = some kind := by
  induction names generalizing table with
  | nil => cases h
  | cons name names ih =>
      change (((table.add kind name).2.addAll kind names).2).kind? s = some kind
      rcases List.mem_cons.mp h with rfl | h
      · have hlt : table.size < (table.add kind name).2.size := by
          rw [size_add]
          exact Nat.lt_succ_self _
        rw [kind?, lookup?_addAll_of_lt hlt, lookup?_add]
        exact congrArg (Option.map _) (if_pos rfl)
      · exact ih h

theorem addAll_concat (name : String) : table.addAll kind (names ++ [name]) =
    ((table.addAll kind names).1 ++ [((table.addAll kind names).2.add kind name).1],
      ((table.addAll kind names).2.add kind name).2) := by
  induction names generalizing table with
  | nil => rfl
  | cons n names ih =>
      show (_ :: ((table.add kind n).2.addAll kind (names ++ [name])).1,
        ((table.add kind n).2.addAll kind (names ++ [name])).2) = _
      rw [ih]
      rfl

end SymbolTable

namespace Transform

/-! ## However a step ends -/

/-- A guarantee about a step: one for the progress it makes, one for the failure it ends in. -/
def Meets (I : Progress → Prop) (E : Failure → Prop) : Except Failure Progress → Prop
  | .ok p => I p
  | .error f => E f

namespace Meets

variable {I J : Progress → Prop} {E F : Failure → Prop} {x : Except Failure Progress}

theorem mono (h : Meets J F x) (hI : ∀ p, J p → I p) (hE : ∀ f, F f → E f) : Meets I E x := by
  cases x with
  | ok p => exact hI p h
  | error f => exact hE f h

theorem and (h : Meets I E x) (h' : Meets J F x) :
    Meets (fun p => I p ∧ J p) (fun f => E f ∧ F f) x := by
  cases x with
  | ok p => exact ⟨h, h'⟩
  | error f => exact ⟨h, h'⟩

theorem bind {f : Progress → Except Failure Progress} (h : Meets J E x)
    (hf : ∀ p, J p → Meets I E (f p)) : Meets I E (x >>= f) := by
  cases x with
  | ok p => exact hf p h
  | error f => exact h

theorem of_submit {p : Progress} {options : Options} {nonterminal : Symbol}
    {drafts : List Draft} (hI : I { p with drafts, changed := true })
    (hE : E ⟨{ p with drafts, changed := true },
      .tooManyProductions options.limit (p.name nonterminal)⟩) :
    Meets I E (p.submit options nonterminal drafts) := by
  unfold Progress.submit
  split
  · exact hE
  · exact hI

end Meets

/-! ## Tracked progress -/

namespace Progress

theorem noteAll_eq (p : Progress) (events : List Event) :
    p.noteAll events = { p with journal := (p.noteAll events).journal } := by
  unfold noteAll
  induction events generalizing p with
  | nil => rfl
  | cons event events ih =>
      rw [List.foldl_cons, ih]
      rfl

theorem kind?_introduce (p : Progress) (options : Options) (base : Symbol) :
    (p.introduce options base).2.grammar.symbols.kind? (p.introduce options base).1 =
      some .nonterminal := by
  rw [SymbolTable.kind?]
  exact congrArg (Option.map _) ((SymbolTable.lookup?_add ..).trans (if_pos rfl))

theorem name?_introduce {p : Progress} {options : Options} {base : Symbol} :
    (p.introduce options base).2.grammar.symbols.name? (p.introduce options base).1 =
      some (p.grammar.symbols.freshName (p.name base) options.suffix) := by
  rw [SymbolTable.name?]
  exact congrArg (Option.map _) ((SymbolTable.lookup?_add ..).trans (if_pos rfl))

theorem name?_introduce_of_ne {p : Progress} {options : Options} {base s : Symbol}
    (hs : s ≠ (p.introduce options base).1) :
    (p.introduce options base).2.grammar.symbols.name? s = p.grammar.symbols.name? s :=
  congrArg (Option.map _) ((SymbolTable.lookup?_add ..).trans (if_neg hs))

theorem ne_introduce {p : Progress} {options : Options} {base s : Symbol}
    (hs : p.grammar.symbols.contains s = true) : s ≠ (p.introduce options base).1 := by
  rintro rfl
  exact Nat.lt_irrefl _ (SymbolTable.lt_of_contains hs).2

/-- `p` is a transformation of `g` under way. -/
structure Tracks (g : Grammar) (p : Progress) : Prop where
  issued : ∃ names, g.addSymbols .nonterminal names = (p.helpers, p.grammar)
  admits : ∀ d ∈ p.drafts, p.grammar.Admits d.toRule
  origins : (originsOf p.drafts).Sublist (g.productions.map (·.id))
  untouched : p.changed = false → p.drafts = g.drafts ∧ p.helpers = []

namespace Tracks

variable {g : Grammar} {p : Progress} {s : Symbol}

/-! ### What a tracked progress keeps -/

theorem grammar_eq (h : p.Tracks g) : p.grammar = { g with symbols := p.grammar.symbols } := by
  obtain ⟨names, hn⟩ := h.issued
  rw [← (Prod.mk.inj hn).2]

theorem id_eq (h : p.Tracks g) : p.grammar.id = g.id := by
  obtain ⟨names, hn⟩ := h.issued
  rw [← (Prod.mk.inj hn).2]
  exact SymbolTable.id_addAll

theorem size_eq (h : p.Tracks g) :
    p.grammar.symbols.size = g.symbols.size + p.helpers.length := by
  obtain ⟨names, hn⟩ := h.issued
  obtain ⟨h₁, h₂⟩ := Prod.mk.inj hn
  rw [← h₁, ← h₂]
  exact SymbolTable.size_addAll.trans (congrArg _ SymbolTable.length_addAll.symm)

/-- The helpers have the indices that follow those of the grammar. -/
theorem helpers_eq (h : p.Tracks g) : p.helpers =
    (List.range p.helpers.length).map fun i => ⟨g.id, g.symbols.size + i⟩ := by
  obtain ⟨names, hn⟩ := h.issued
  obtain ⟨h₁, -⟩ := Prod.mk.inj hn
  rw [← h₁, SymbolTable.length_addAll]
  exact SymbolTable.fst_addAll

theorem nodup_helpers (h : p.Tracks g) : p.helpers.Nodup := by
  rw [h.helpers_eq]
  refine List.nodup_range.map fun i j heq => ?_
  exact Nat.add_left_cancel (congrArg Symbol.index heq)

/-- The helper that is issued next. -/
theorem introduce_eq (h : p.Tracks g) (options : Options) (base : Symbol) :
    (p.introduce options base).1 = ⟨g.id, g.symbols.size + p.helpers.length⟩ := by
  rw [← h.size_eq, ← h.id_eq]
  rfl

theorem mem_helpers_iff (h : p.Tracks g) : s ∈ p.helpers ↔
    s.owner = g.id ∧ g.symbols.size ≤ s.index ∧ s.index < p.grammar.symbols.size := by
  obtain ⟨names, hn⟩ := h.issued
  obtain ⟨h₁, h₂⟩ := Prod.mk.inj hn
  rw [← h₁, ← h₂]
  refine Iff.trans SymbolTable.mem_addAll_iff ?_
  rw [← @SymbolTable.size_addAll g.symbols .nonterminal names]
  rfl

theorem kind?_helper (h : p.Tracks g) (hs : s ∈ p.helpers) :
    p.grammar.symbols.kind? s = some .nonterminal := by
  obtain ⟨names, hn⟩ := h.issued
  obtain ⟨h₁, h₂⟩ := Prod.mk.inj hn
  rw [← h₁] at hs
  rw [← h₂]
  exact SymbolTable.kind?_addAll_of_mem hs

theorem not_contains_helper (h : p.Tracks g) (hs : s ∈ p.helpers) :
    g.symbols.contains s ≠ true := by
  intro hc
  have hlt := (SymbolTable.lt_of_contains hc).2
  have hle := ((h.mem_helpers_iff).mp hs).2.1
  omega

theorem lookup?_of_lt (h : p.Tracks g) (hs : s.index < g.symbols.size) :
    p.grammar.symbols.lookup? s = g.symbols.lookup? s := by
  obtain ⟨names, hn⟩ := h.issued
  rw [← (Prod.mk.inj hn).2]
  exact SymbolTable.lookup?_addAll_of_lt hs

theorem kind?_of_contains (h : p.Tracks g) (hs : g.symbols.contains s = true) :
    p.grammar.symbols.kind? s = g.symbols.kind? s :=
  SymbolTable.kind?_congr (h.lookup?_of_lt (SymbolTable.lt_of_contains hs).2)

theorem name_eq (h : p.Tracks g) (hs : g.symbols.contains s = true) :
    p.name s = g.displayName s := by
  rw [name, Grammar.displayName, Grammar.displayName, SymbolTable.name?, SymbolTable.name?,
    h.lookup?_of_lt (SymbolTable.lt_of_contains hs).2]

theorem contains_iff (h : p.Tracks g) :
    p.grammar.symbols.contains s = true ↔ g.symbols.contains s = true ∨ s ∈ p.helpers := by
  by_cases hlt : s.index < g.symbols.size
  · have hkind := SymbolTable.kind?_congr (h.lookup?_of_lt hlt)
    have hnot : s ∉ p.helpers := fun hs =>
      Nat.lt_irrefl _ (Nat.lt_of_lt_of_le hlt (h.mem_helpers_iff.mp hs).2.1)
    rw [SymbolTable.contains_congr hkind]
    simp [hnot]
  · have hnot : g.symbols.contains s ≠ true := fun hs =>
      hlt (SymbolTable.lt_of_contains hs).2
    constructor
    · intro hs
      obtain ⟨howner, hindex⟩ := SymbolTable.lt_of_contains hs
      exact Or.inr (h.mem_helpers_iff.mpr
        ⟨howner.trans h.id_eq, Nat.le_of_not_lt hlt, hindex⟩)
    · rintro (hs | hs)
      · exact absurd hs hnot
      · exact SymbolTable.contains_of_kind? (h.kind?_helper hs)

/-- Helpers are nonterminals, so the terminals are those of the start. -/
theorem terminal_iff (h : p.Tracks g) :
    p.grammar.symbols.kind? s = some .terminal ↔ g.symbols.kind? s = some .terminal := by
  constructor
  · intro hs
    rcases h.contains_iff.mp (SymbolTable.contains_of_kind? hs) with hc | hmem
    · rw [← h.kind?_of_contains hc]
      exact hs
    · rw [h.kind?_helper hmem] at hs
      cases hs
  · intro hs
    rw [h.kind?_of_contains (SymbolTable.contains_of_kind? hs)]
    exact hs

theorem wellFormed (h : p.Tracks g) (hg : g.WellFormed) : p.grammar.WellFormed := by
  obtain ⟨names, hn⟩ := h.issued
  rw [← (Prod.mk.inj hn).2]
  exact hg.addSymbols .nonterminal names

/-! ### Steps -/

theorem start (hg : g.WellFormed) (journal : Array Event) : (start g journal).Tracks g where
  issued := ⟨[], rfl⟩
  admits := by
    intro d hd
    obtain ⟨q, hq, rfl⟩ := List.mem_map.mp hd
    exact hg.admits q hq
  origins := (originsOf_drafts g).symm ▸ List.Sublist.refl _
  untouched := fun _ => ⟨rfl, rfl⟩

theorem journal (h : p.Tracks g) (journal : Array Event) : { p with journal }.Tracks g :=
  ⟨h.issued, h.admits, h.origins, h.untouched⟩

/-- New drafts that are admitted and keep no more origins than before. -/
theorem replace (h : p.Tracks g) {drafts : List Draft}
    (hadmits : ∀ d ∈ drafts, p.grammar.Admits d.toRule)
    (horigins : (originsOf drafts).Sublist (originsOf p.drafts)) :
    { p with drafts, changed := true }.Tracks g where
  issued := h.issued
  admits := hadmits
  origins := horigins.trans h.origins
  untouched := by rintro ⟨⟩

theorem admits_introduce {p : Progress} {options : Options} {base : Symbol} {rule : Rule}
    (hr : p.grammar.Admits rule) : (p.introduce options base).2.grammar.Admits rule := by
  have hkind : ∀ s, p.grammar.symbols.contains s = true →
      (p.introduce options base).2.grammar.symbols.kind? s = p.grammar.symbols.kind? s := by
    intro s hs
    refine SymbolTable.kind?_congr ?_
    refine (SymbolTable.lookup?_add ..).trans (if_neg ?_)
    rintro rfl
    exact Nat.lt_irrefl _ (SymbolTable.lt_of_contains hs).2
  refine ⟨(hkind _ (SymbolTable.contains_of_kind? hr.1)).trans hr.1, ?_⟩
  intro s hs
  rw [SymbolTable.contains_congr (hkind s (hr.2 s hs))]
  exact hr.2 s hs

/-- A helper is issued and the drafts change with it. -/
theorem introduce (h : p.Tracks g) {options : Options} {base : Symbol} {drafts : List Draft}
    (hadmits : ∀ d ∈ drafts, (p.introduce options base).2.grammar.Admits d.toRule)
    (horigins : (originsOf drafts).Sublist (originsOf p.drafts)) :
    { (p.introduce options base).2 with drafts, changed := true }.Tracks g where
  issued := by
    obtain ⟨names, hn⟩ := h.issued
    obtain ⟨h₁, h₂⟩ := Prod.mk.inj hn
    refine ⟨names ++ [p.grammar.symbols.freshName (p.name base) options.suffix], ?_⟩
    simp only [Grammar.addSymbols, SymbolTable.addAll_concat]
    simp only [Progress.introduce, Grammar.addSymbol, ← h₁, ← h₂]
  admits := hadmits
  origins := horigins.trans h.origins
  untouched := by rintro ⟨⟩

theorem ne_introduce (h : p.Tracks g) {options : Options} {base : Symbol}
    (hs : g.symbols.contains s = true) : s ≠ (p.introduce options base).1 :=
  Progress.ne_introduce (h.contains_iff.mpr (Or.inl hs))

/-- The helper that is issued next is nowhere in the rules. -/
theorem fresh (h : p.Tracks g) (options : Options) (base : Symbol) : ∀ r ∈ rulesOf p.drafts,
    r.lhs ≠ (p.introduce options base).1 ∧ (p.introduce options base).1 ∉ r.rhs := by
  intro r hr
  obtain ⟨hlhs, hrhs⟩ := forall_mem_rulesOf_iff.mpr h.admits r hr
  exact ⟨Progress.ne_introduce (SymbolTable.contains_of_kind? hlhs),
    fun hmem => Progress.ne_introduce (hrhs _ hmem) rfl⟩

theorem index_lt_introduce (h : p.Tracks g) (options : Options) (base : Symbol) :
    ∀ r ∈ rulesOf p.drafts, ∀ s ∈ r.rhs, s.index < (p.introduce options base).1.index := by
  intro r hr s hs
  exact (SymbolTable.lt_of_contains ((forall_mem_rulesOf_iff.mpr h.admits r hr).2 s hs)).2

/-! ### The end -/

theorem draftsFault?_eq_none (h : p.Tracks g) (hg : g.WellFormed) :
    p.grammar.draftsFault? [] p.drafts = none := by
  refine Grammar.draftsFault?_eq_none_iff.mpr
    ⟨h.admits, ?_, hg.distinct.sublist h.origins⟩
  intro id hid
  have hmem : id ∈ p.grammar.productions.map (·.id) := by
    rw [h.grammar_eq]
    exact h.origins.subset hid
  obtain ⟨q, hq, rfl⟩ := List.mem_map.mp hmem
  exact ⟨⟨q, hq, rfl⟩, List.not_mem_nil⟩

/-- **The grammar takes the drafts.** A tracked progress commits with its helpers, and the
grammar gets the rules of its drafts and nothing else. -/
theorem commit_eq (h : p.Tracks g) (hg : g.WellFormed) :
    p.commit.result = .ok p.helpers ∧
      p.commit.grammar.system.rules = rulesOf p.drafts ∧
      p.commit.grammar.symbols = p.grammar.symbols ∧ p.commit.grammar.start = g.start := by
  unfold Progress.commit
  split
  · have hok : p.grammar.replaceProductions p.drafts = .ok _ :=
      Grammar.grant_eq_ok_iff.mpr ⟨h.draftsFault?_eq_none hg, rfl⟩
    rw [hok]
    refine ⟨rfl, Grammar.map_toRule_numbered .., rfl, ?_⟩
    show p.grammar.start = g.start
    rw [h.grammar_eq]
  · rename_i hchanged
    obtain ⟨hdrafts, hhelpers⟩ := h.untouched (by simpa using hchanged)
    refine ⟨by rw [hhelpers], ?_, rfl, by rw [h.grammar_eq]⟩
    show p.grammar.productions.map (·.toRule) = _
    rw [hdrafts, ← rules_eq_rulesOf, h.grammar_eq]
    rfl

/-- The productions afterwards are the drafts, touched or not, under their origins or under the
next serial numbers. -/
theorem productions_commit (h : p.Tracks g) (hg : g.WellFormed) :
    p.commit.grammar.productions = Grammar.numbered g.id g.nextSerial p.drafts := by
  unfold Progress.commit
  split
  · have hok : p.grammar.replaceProductions p.drafts = .ok _ :=
      Grammar.grant_eq_ok_iff.mpr ⟨h.draftsFault?_eq_none hg, rfl⟩
    rw [hok, ← h.id_eq]
    show Grammar.numbered p.grammar.id p.grammar.nextSerial p.drafts = _
    rw [show p.grammar.nextSerial = g.nextSerial by rw [h.grammar_eq]]
  · rename_i hchanged
    rw [(h.untouched (by simpa using hchanged)).1, Grammar.numbered_drafts, h.grammar_eq]

end Tracks

/-- A progress that was not touched commits to the grammar it started with. -/
theorem Tracks.commit_of_unchanged {g : Grammar} {p : Progress} (h : p.Tracks g)
    (hchanged : p.changed = false) : p.commit.grammar = g ∧ p.commit.result = .ok [] := by
  obtain ⟨names, hn⟩ := h.issued
  obtain ⟨h₁, h₂⟩ := Prod.mk.inj hn
  -- No helper was issued, so the symbol table is the one of the start.
  have hnil : names = [] := by
    cases names with
    | nil => rfl
    | cons name names => exact absurd (h₁.trans (h.untouched hchanged).2) (by rintro ⟨⟩)
  subst hnil
  unfold commit
  rw [hchanged, if_neg Bool.false_ne_true, ← h₂]
  exact ⟨rfl, rfl⟩

/-! ### Well-formedness at the end -/

theorem wellFormed_withdraw {p : Progress} (h : p.grammar.WellFormed) (helper : Symbol) :
    (p.withdraw helper).grammar.WellFormed := by
  unfold withdraw
  split
  · exact h
  · rename_i herase
    exact h.eraseSymbol herase
  · exact h

end Progress

theorem Failure.wellFormed_abort {f : Failure} (h : f.progress.grammar.WellFormed) :
    f.abort.grammar.WellFormed := by
  have hfold : ∀ (helpers : List Symbol) (p : Progress), p.grammar.WellFormed →
      (helpers.foldl Progress.withdraw p).grammar.WellFormed := by
    intro helpers
    induction helpers with
    | nil => exact fun _ hp => hp
    | cons helper helpers ih =>
        exact fun p hp => ih _ (Progress.wellFormed_withdraw hp helper)
  exact hfold _ _ h

theorem Progress.wellFormed_commit {p : Progress} (h : p.grammar.WellFormed) :
    p.commit.grammar.WellFormed := by
  unfold commit
  split
  · split
    · exact Failure.wellFormed_abort h
    · rename_i hok
      exact h.replaceProductions hok
  · exact h

end Transform

end TopDown
