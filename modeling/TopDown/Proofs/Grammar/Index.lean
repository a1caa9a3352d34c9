import Mathlib.Data.List.Induction
import Mathlib.Data.List.Nodup
import Mathlib.Data.List.Perm.Basic
import TopDown.Grammar.Index
import TopDown.Proofs.Grammar.Reachable

/-!
# The index lists what a scan finds

The index is built by inserting one production after another. `ProductionIndex.Lists` says of an
index that its left-hand sides are in strict order, that none is without an ID, and that the IDs of
each are those that a scan of the productions finds. An insertion carries this over to a list with
one production more (`Lists.insert`), so it holds of the index of a grammar (`lists_index`).

* `Lists.mem_entries_iff`: the entries are known from what is found under each symbol.
* `Lists.eq_of_ids`: hence two indices that list the same IDs are equal.
* `Grammar.index_exact`: all this for reachable grammars, whose IDs are distinct.
-/

namespace TopDown

namespace ProductionIndex

variable {entries : List (Symbol × List Production.Id)} {entry : Symbol × List Production.Id}
  {lhs s : Symbol} {id : Production.Id} {ids : List Production.Id}

/-! ## Insertion into entries -/

/-- One entry stands before another: its left-hand side is a smaller symbol. -/
def Precedes (e e' : Symbol × List Production.Id) : Prop := e.1.le e'.1 = true ∧ e.1 ≠ e'.1

/-- An insertion brings no other left-hand side than the one it is for. -/
theorem eq_or_mem_of_mem_insertEntry (h : entry ∈ insertEntry lhs id entries) :
    entry.1 = lhs ∨ ∃ e ∈ entries, e.1 = entry.1 := by
  induction entries with
  | nil => exact Or.inl (congrArg Prod.fst (List.mem_singleton.mp h))
  | cons e entries ih =>
      obtain ⟨s, ids⟩ := e
      unfold insertEntry at h
      split at h
      · rename_i heq
        rcases List.mem_cons.mp h with rfl | h
        · exact Or.inl heq
        · exact Or.inr ⟨entry, List.mem_cons_of_mem _ h, rfl⟩
      · split at h
        · rcases List.mem_cons.mp h with rfl | h
          · exact Or.inl rfl
          · exact Or.inr ⟨entry, h, rfl⟩
        · rcases List.mem_cons.mp h with rfl | h
          · exact Or.inr ⟨_, List.mem_cons_self, rfl⟩
          · refine (ih h).imp_right ?_
            rintro ⟨e, he, heq⟩
            exact ⟨e, List.mem_cons_of_mem _ he, heq⟩

/-- What stands behind the entry of a greater symbol stands behind any entry of a symbol. -/
theorem Precedes.of_le (h : Precedes (s, ids) entry) (hne : s ≠ lhs) (hle : lhs.le s = true)
    (ids' : List Production.Id) : Precedes (lhs, ids') entry := by
  refine ⟨Symbol.le_trans hle h.1, ?_⟩
  rintro rfl
  exact hne (Symbol.le_antisymm h.1 hle)

theorem pairwise_insertEntry (h : entries.Pairwise Precedes) :
    (insertEntry lhs id entries).Pairwise Precedes := by
  induction entries with
  | nil => exact List.pairwise_singleton _ _
  | cons e entries ih =>
      obtain ⟨s, ids⟩ := e
      obtain ⟨hfirst, hrest⟩ := List.pairwise_cons.mp h
      unfold insertEntry
      split
      · exact List.pairwise_cons.mpr ⟨hfirst, hrest⟩
      · rename_i hne
        split
        · rename_i hle
          refine List.pairwise_cons.mpr ⟨?_, h⟩
          intro e he
          rcases List.mem_cons.mp he with rfl | he
          · exact ⟨hle, Ne.symm hne⟩
          · exact (hfirst e he).of_le hne hle _
        · rename_i hgt
          refine List.pairwise_cons.mpr ⟨fun e he => ?_, ih hrest⟩
          rcases eq_or_mem_of_mem_insertEntry he with heq | ⟨e', he', heq⟩
          · have htotal := Symbol.le_total s lhs
            rw [Bool.eq_false_iff.mpr hgt, Bool.or_false] at htotal
            rw [Precedes, heq]
            exact ⟨htotal, hne⟩
          · have hprecedes := hfirst e' he'
            rw [Precedes, heq] at hprecedes
            exact hprecedes

theorem ne_nil_of_mem_insertEntry (h : ∀ e ∈ entries, e.2 ≠ []) :
    ∀ e ∈ insertEntry lhs id entries, e.2 ≠ [] := by
  induction entries with
  | nil => simp [insertEntry]
  | cons e entries ih =>
      obtain ⟨s, ids⟩ := e
      obtain ⟨hfirst, hrest⟩ := List.forall_mem_cons.mp h
      unfold insertEntry
      split
      · exact List.forall_mem_cons.mpr ⟨by simp, hrest⟩
      · split
        · exact List.forall_mem_cons.mpr ⟨by simp, h⟩
        · exact List.forall_mem_cons.mpr ⟨hfirst, ih hrest⟩

theorem lookup_cons_of_ne (hs : s ≠ entry.1) : (entry :: entries).lookup s = entries.lookup s := by
  rw [List.lookup_cons, beq_false_of_ne hs]

/-- What is found after an insertion into entries in order. -/
theorem lookup_insertEntry (h : entries.Pairwise Precedes) (s : Symbol) :
    ((insertEntry lhs id entries).lookup s).getD [] =
      (entries.lookup s).getD [] ++ if lhs = s then [id] else [] := by
  induction entries with
  | nil =>
      by_cases hs : lhs = s
      · simp [insertEntry, hs]
      · rw [insertEntry, lookup_cons_of_ne (Ne.symm hs), if_neg hs, List.append_nil]
  | cons e entries ih =>
      obtain ⟨t, ids⟩ := e
      obtain ⟨hfirst, hrest⟩ := List.pairwise_cons.mp h
      unfold insertEntry
      split
      · rename_i heq
        subst heq
        by_cases hs : t = s
        · simp [hs]
        · rw [lookup_cons_of_ne (Ne.symm hs), lookup_cons_of_ne (Ne.symm hs), if_neg hs,
            List.append_nil]
      · rename_i hne
        split
        · rename_i hle
          by_cases hs : lhs = s
          · subst hs
            -- Nothing was found before: all entries are greater.
            have hnone : ((t, ids) :: entries).lookup lhs = none := by
              rw [lookup_cons_of_ne (Ne.symm hne)]
              exact List.lookup_eq_none_iff.mpr fun e he =>
                bne_iff_ne.mpr ((hfirst e he).of_le hne hle []).2
            rw [hnone]
            simp
          · rw [lookup_cons_of_ne (Ne.symm hs), if_neg hs, List.append_nil]
        · by_cases hs : t = s
          · subst hs
            simp [Ne.symm hne]
          · rw [lookup_cons_of_ne (Ne.symm hs), lookup_cons_of_ne (Ne.symm hs)]
            exact ih hrest

/-! ## What an index lists -/

/-- An index lists productions: its entries are in strict order, none is empty, and under each
symbol there are the IDs of its productions in order. -/
structure Lists (ps : List Production) (index : ProductionIndex) : Prop where
  ascending : index.entries.Pairwise Precedes
  inhabited : ∀ e ∈ index.entries, e.2 ≠ []
  ids : ∀ s, index.ids s = (ps.filter (·.lhs = s)).map (·.id)

variable {ps ps' : List Production} {index index' : ProductionIndex}

theorem lists_nil : Lists [] {} where
  ascending := .nil
  inhabited := by simp
  ids := fun _ => rfl

theorem Lists.insert (h : Lists ps index) (p : Production) :
    Lists (ps ++ [p]) (index.insert p.lhs p.id) where
  ascending := pairwise_insertEntry h.ascending
  inhabited := ne_nil_of_mem_insertEntry h.inhabited
  ids := by
    intro s
    rw [List.filter_append, List.map_append, ← h.ids s]
    refine (lookup_insertEntry h.ascending s).trans (congrArg (index.ids s ++ ·) ?_)
    by_cases hs : p.lhs = s <;> simp [hs]

/-- An entry is there exactly if it is what is found under its symbol, and that is something. -/
theorem Lists.mem_entries_iff (h : Lists ps index) :
    (s, ids) ∈ index.entries ↔ index.ids s = ids ∧ ids ≠ [] := by
  constructor
  · intro hmem
    refine ⟨?_, h.inhabited _ hmem⟩
    obtain ⟨before, after, hsplit⟩ := List.append_of_mem hmem
    have hascending := h.ascending
    rw [hsplit] at hascending
    have hbefore : ∀ e ∈ before, (s != e.1) = true := fun e he =>
      bne_iff_ne.mpr ((List.pairwise_append.mp hascending).2.2 e he _ List.mem_cons_self).2.symm
    have hlookup : index.entries.lookup s = some ids :=
      List.lookup_eq_some_iff.mpr ⟨before, after, hsplit, hbefore⟩
    rw [ProductionIndex.ids, hlookup, Option.getD_some]
  · rintro ⟨rfl, hne⟩
    rcases Option.eq_none_or_eq_some (index.entries.lookup s) with hnone | ⟨ids, hsome⟩
    · rw [ProductionIndex.ids, hnone] at hne
      exact absurd rfl hne
    · obtain ⟨before, after, hsplit, -⟩ := List.lookup_eq_some_iff.mp hsome
      rw [ProductionIndex.ids, hsome, hsplit]
      simp

theorem Lists.mem_keys_iff (h : Lists ps index) :
    s ∈ index.entries.map Prod.fst ↔ ∃ p ∈ ps, p.lhs = s := by
  have hids : index.ids s ≠ [] ↔ ∃ p ∈ ps, p.lhs = s := by
    rw [h.ids, Ne, List.map_eq_nil_iff, List.filter_eq_nil_iff]
    simp
  rw [← hids]
  constructor
  · intro hmem
    obtain ⟨e, he, rfl⟩ := List.mem_map.mp hmem
    obtain ⟨hfound, hne⟩ := h.mem_entries_iff.mp he
    rwa [hfound]
  · exact fun hne => List.mem_map.mpr ⟨_, h.mem_entries_iff.mpr ⟨rfl, hne⟩, rfl⟩

/-- **An index is known from what it lists.** -/
theorem Lists.eq_of_ids (h : Lists ps index) (h' : Lists ps' index')
    (hids : ∀ s, index.ids s = index'.ids s) : index = index' := by
  have hnodup : ∀ {entries : List (Symbol × List Production.Id)},
      entries.Pairwise Precedes → entries.Nodup := by
    intro entries hascending
    refine hascending.imp ?_
    rintro e _ hprecedes rfl
    exact hprecedes.2 rfl
  have hperm : index.entries.Perm index'.entries := by
    refine (List.perm_ext_iff_of_nodup (hnodup h.ascending) (hnodup h'.ascending)).mpr ?_
    rintro ⟨s, ids⟩
    rw [h.mem_entries_iff, h'.mem_entries_iff, hids]
  have hentries : index.entries = index'.entries := by
    refine hperm.eq_of_pairwise (fun e e' _ _ hlt hgt => ?_) h.ascending h'.ascending
    exact absurd (Symbol.le_antisymm hlt.1 hgt.1) hlt.2
  exact congrArg ProductionIndex.mk hentries

end ProductionIndex

namespace Grammar

variable {g : Grammar}

open ProductionIndex in
theorem lists_index (g : Grammar) : Lists g.productions g.index := by
  unfold index
  induction g.productions using List.reverseRecOn with
  | nil => exact lists_nil
  | append_singleton ps p ih =>
      rw [List.foldl_append]
      exact ih.insert p

theorem ids_index (g : Grammar) (s : Symbol) : g.index.ids s = (g.productionsOf s).map (·.id) :=
  g.lists_index.ids s

/-- In a well-formed grammar the order of the index is the order of creation. -/
theorem WellFormed.pairwise_index (hg : g.WellFormed) :
    (g.index.entries.map Prod.fst).Pairwise (·.index < ·.index) := by
  have howner : ∀ e ∈ g.index.entries, e.1.owner = g.id := by
    intro e he
    obtain ⟨p, hp, heq⟩ := g.lists_index.mem_keys_iff.mp (List.mem_map_of_mem he)
    rw [← heq]
    exact (SymbolTable.lt_of_contains (SymbolTable.contains_of_kind? (hg.admits p hp).1)).1
  refine List.pairwise_map.mpr (g.lists_index.ascending.imp_of_mem ?_)
  rintro ⟨⟨owner, i⟩, _⟩ ⟨⟨owner', j⟩, _⟩ he he' ⟨hle, hne⟩
  obtain rfl : owner = g.id := howner _ he
  obtain rfl : owner' = g.id := howner _ he'
  rw [Symbol.le_iff] at hle
  have hij : i ≠ j := fun heq => hne (congrArg (Symbol.mk g.id) heq)
  simp only at hle ⊢
  omega

/-- IDs are distinct, so each is found under its own left-hand side, once, and nowhere else. -/
theorem WellFormed.exists_entry (hg : g.WellFormed) {p : Production} (hp : p ∈ g.productions) :
    ∃ before ids after, g.index.entries = before ++ (p.lhs, ids) :: after ∧ ids.count p.id = 1 ∧
      ∀ entry ∈ before ++ after, p.id ∉ entry.2 := by
  have hlists := g.lists_index
  have hfound : ∀ entry ∈ g.index.entries, entry.2 = (g.productionsOf entry.1).map (·.id) :=
    fun entry hentry => (hlists.mem_entries_iff.mp hentry).1.symm.trans (g.ids_index _)
  obtain ⟨⟨s, ids⟩, hentry, hs⟩ := List.mem_map.mp (hlists.mem_keys_iff.mpr ⟨p, hp, rfl⟩)
  obtain rfl : s = p.lhs := hs
  obtain ⟨before, after, hsplit⟩ := List.append_of_mem hentry
  have hids : ids = (g.productionsOf p.lhs).map (·.id) := hfound _ hentry
  refine ⟨before, ids, after, hsplit, ?_, fun entry hother hmem => ?_⟩
  · rw [hids]
    refine List.count_eq_one_of_mem (hg.distinct.sublist (List.filter_sublist.map _)) ?_
    exact List.mem_map_of_mem (List.mem_filter.mpr ⟨hp, by simp⟩)
  · have hentry' : entry ∈ g.index.entries := by
      rw [hsplit]
      exact List.mem_append.mpr ((List.mem_append.mp hother).imp_right (List.mem_cons_of_mem _))
    rw [hfound entry hentry'] at hmem
    obtain ⟨q, hq, hid⟩ := List.mem_map.mp hmem
    obtain ⟨hq, hlhs⟩ := List.mem_filter.mp hq
    obtain rfl : q = p := List.inj_on_of_nodup_map hg.distinct hq hp hid
    have hascending := hlists.ascending
    rw [hsplit] at hascending
    obtain ⟨-, hrest, hbefore⟩ := List.pairwise_append.mp hascending
    have heq : q.lhs = entry.1 := of_decide_eq_true hlhs
    rcases List.mem_append.mp hother with hother | hother
    · exact (hbefore entry hother _ List.mem_cons_self).2 heq.symm
    · exact ((List.pairwise_cons.mp hrest).1 entry hother).2 heq

/-- **The index lists what a scan finds.** Under each symbol there are the IDs of its productions
in order; the left-hand sides are those of the productions, each once and in creation order; and
each ID is in one entry, once. Two indices are equal if and only if under each symbol a scan finds
the same IDs in the same order. -/
theorem index_exact (hg : g.Reachable) :
    (∀ s, g.index.ids s = (g.productionsOf s).map (·.id)) ∧
    ((g.index.entries.map Prod.fst).Pairwise (·.index < ·.index) ∧
      (∀ s, s ∈ g.index.entries.map Prod.fst ↔ ∃ p ∈ g.productions, p.lhs = s) ∧
      ∀ entry ∈ g.index.entries, entry.2 = (g.productionsOf entry.1).map (·.id)) ∧
    (∀ p ∈ g.productions, ∃ before ids after,
      g.index.entries = before ++ (p.lhs, ids) :: after ∧ ids.count p.id = 1 ∧
        ∀ entry ∈ before ++ after, p.id ∉ entry.2) ∧
    ∀ h : Grammar, g.index = h.index ↔
      ∀ s, (g.productionsOf s).map (·.id) = (h.productionsOf s).map (·.id) := by
  have hlists := g.lists_index
  refine ⟨g.ids_index, ⟨hg.wellFormed.pairwise_index, fun s => hlists.mem_keys_iff, ?_⟩,
    fun p hp => hg.wellFormed.exists_entry hp, fun h => ⟨?_, ?_⟩⟩
  · intro entry hentry
    rw [← g.ids_index, (hlists.mem_entries_iff.mp hentry).1]
  · intro heq s
    rw [← g.ids_index, ← h.ids_index, heq]
  · intro hids
    refine hlists.eq_of_ids h.lists_index fun s => ?_
    rw [g.ids_index, h.ids_index, hids]

/-- The rules `A → a`, `A → a`, `B → ε` and `A → ε`, of which the second was a rule of `B`. -/
def moved : Grammar :=
  let a : Symbol := ⟨⟨1⟩, 0⟩
  let b : Symbol := ⟨⟨1⟩, 1⟩
  let terminal : Symbol := ⟨⟨1⟩, 2⟩
  (Edit.applyAll (.empty ⟨1⟩)
    [.addSymbols .nonterminal ["A", "B"], .addSymbol .terminal "a",
      .build a [.alternative [terminal]], .build b [.alternative [terminal], .alternative []],
      .build a [.alternative []], .setLhs ⟨⟨1⟩, 1⟩ a]).1

/-- The moved rule is listed under its new symbol, between the others, and the index is another
one once the only rule of `B` is erased. -/
theorem index_exact_moved :
    moved.Reachable ∧
      moved.index.ids ⟨⟨1⟩, 0⟩ = [⟨⟨1⟩, 0⟩, ⟨⟨1⟩, 1⟩, ⟨⟨1⟩, 3⟩] ∧
      (∃ before ids after, moved.index.entries = before ++ (⟨⟨1⟩, 0⟩, ids) :: after ∧
        ids.count ⟨⟨1⟩, 1⟩ = 1 ∧ ∀ entry ∈ before ++ after, ⟨⟨1⟩, 1⟩ ∉ entry.2) ∧
      moved.index ≠ ((Edit.eraseProduction ⟨⟨1⟩, 2⟩).apply moved).1.index := by
  have hreach : moved.Reachable := (Reachable.empty ⟨1⟩).applyAll _
  obtain ⟨hids, -, honce, hstates⟩ := index_exact hreach
  refine ⟨hreach, (hids _).trans (by decide +kernel),
    honce { lhs := ⟨⟨1⟩, 0⟩, rhs := [⟨⟨1⟩, 2⟩], id := ⟨⟨1⟩, 1⟩, label := "B #1" }
      (by decide +kernel), fun heq => ?_⟩
  have hscan := (hstates _).mp heq ⟨⟨1⟩, 1⟩
  revert hscan
  decide +kernel

end Grammar

end TopDown
