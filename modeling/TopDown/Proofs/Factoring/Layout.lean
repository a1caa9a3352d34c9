import TopDown.Proofs.Factoring.Unfolding
import TopDown.Proofs.Transform.InPlace

/-!
# What left-factoring leaves where it was

A merge puts one draft in the place of the first that it takes, with the same left-hand side and
label, drops the others, and appends the drafts of its helper.

* `map_key_mergeInto_sublist`: the keys after a merge are some of those before it, in their order.
* `Layout g p`: the keys of the drafts are some of those of the productions, followed by those of
  the helpers; empty alternatives, and those that share their first symbol with no other, are
  there as they were.
* `exists_layout_of_ok`: what a successful run leaves.
-/

namespace TopDown.Transform.Factoring

variable {a b head helper s : Symbol} {name : String} {drafts : List Draft} {d : Draft}

/-! ## Keys after a merge -/

theorem map_key_mergeInto_sublist {fits : Draft → Bool} {merged : Draft → Draft}
    (h : ∀ d, fits d = true → (merged d).key = d.key) (drafts : List Draft) :
    ((mergeInto fits merged drafts).map (·.key)).Sublist (drafts.map (·.key)) := by
  induction drafts with
  | nil => exact .slnil
  | cons d drafts ih =>
      unfold mergeInto
      split
      · rename_i hd
        rw [List.map_cons, List.map_cons, h d hd]
        exact (List.filter_sublist.map _).cons_cons _
      · exact ih.cons_cons _

/-- After a merge there are some of the keys of before, and behind them those of the helper. -/
theorem map_key_merge (a head helper : Symbol) (name : String) (drafts : List Draft) :
    ∃ keys added, (merge a head helper name drafts).map (·.key) = keys ++ added ∧
      keys.Sublist (drafts.map (·.key)) ∧ ∀ key ∈ added, key.1 = helper := by
  rw [merge_eq, List.map_append]
  refine ⟨_, _, rfl, map_key_mergeInto_sublist (fun d hd => ?_) drafts, fun key hkey => ?_⟩
  · exact Prod.ext (isMember_iff.mp hd).1.symm rfl
  · obtain ⟨d, hd, rfl⟩ := List.mem_map.mp hkey
    obtain ⟨i, hi, rfl⟩ := List.mem_mapIdx.mp hd
    rfl

theorem mem_merge_of_not_member (hany : drafts.any (isMember a head) = true) (hd : d ∈ drafts)
    (hmember : isMember a head d = false) : d ∈ merge a head helper name drafts := by
  obtain ⟨label, hperm⟩ := exists_perm_merge helper name hany
  refine hperm.mem_iff.mpr (List.mem_cons_of_mem _ (List.mem_append_left _ ?_))
  exact List.mem_filter.mpr ⟨hd, by rw [hmember]; rfl⟩

/-! ## The layout of the drafts -/

variable {g : Grammar} {p : Progress} {options : Options}

/-- The drafts of a factoring under way: some of the productions of `g`, merged or not, in their
order, and behind them the blocks of the helpers. -/
structure Layout (g : Grammar) (p : Progress) : Prop where
  tracks : p.Tracks g
  parts : ∃ part rest, p.drafts.map (·.key) = part ++ rest ∧
    part.Sublist (g.productions.map (·.key)) ∧
    InPlace (fun h block => ∀ key ∈ block, key.1 = h) p.helpers rest
  empty : ∀ d ∈ g.drafts, d.rhs = [] → d ∈ p.drafts
  alone : ∀ b s d, g.symbols.contains b = true → members b s g.drafts = [d] →
    members b s p.drafts = [d]

namespace Layout

theorem start (hg : g.WellFormed) : Layout g (.start g #[]) where
  tracks := .start hg #[]
  parts := ⟨_, [], (List.append_nil _).symm, Grammar.map_key_drafts g ▸ .refl _, .nil⟩
  empty := fun _ hd _ => hd
  alone := fun _ _ _ _ h => h

theorem merge (hp : Layout g p) (hshared : sharedHead? a p.drafts = some head)
    (journal : Array Event) :
    let issued := p.introduce options a
    Layout g { issued.2 with
      drafts := merge a head issued.1 (issued.2.name issued.1) p.drafts
      changed := true
      journal } := by
  intro issued
  have hany := any_isMember_of_sharedHead? hshared
  refine ⟨tracks_merge hp.tracks hshared journal, ?_, fun d hd hnil => ?_,
    fun b s d hb hmembers => ?_⟩
  · obtain ⟨part, rest, heq, hpart, hrest⟩ := hp.parts
    obtain ⟨keys, added, hmerge, hkeys, hadded⟩ :=
      map_key_merge a head issued.1 (issued.2.name issued.1) p.drafts
    rw [heq] at hkeys
    obtain ⟨part', rest', rfl, hpart', hrest'⟩ := List.sublist_append_iff.mp hkeys
    refine ⟨part', rest' ++ added, hmerge.trans (List.append_assoc ..), hpart'.trans hpart, ?_⟩
    -- A block that lost drafts to a merge is one of the same helper.
    have hblocks := hrest.sublist (fun _ _ _ hblock hsub key hkey => hblock key (hsub.subset hkey))
      hrest'
    exact hblocks.concat hadded
  · refine mem_merge_of_not_member hany (hp.empty d hd hnil) ?_
    rw [isMember, hnil, List.head?_nil]
    simp
  · have hmembers' := hp.alone b s d hb hmembers
    have hne : b ≠ issued.1 := hp.tracks.ne_introduce hb
    exact (members_merge hany (not_merged_of_members hshared hmembers') hne).trans hmembers'

variable (options) in
theorem factorAll (hp : Layout g p) (queue : List Symbol) :
    Meets (Layout g) (Layout g ·.progress) (factorAll options p queue) :=
  meets_factorAll_of_merge (fun _ _ _ hp hshared => hp.merge hshared) hp queue

end Layout

/-- In a grammar, an alternative that shares its first symbol with no other is the only one with
this symbol. -/
theorem members_drafts_eq_singleton (hg : g.WellFormed) {q : Production} (hq : q ∈ g.productions)
    (hs : q.rhs.head? = some s) (halone : ∀ r ∈ g.productions, r ≠ q → r.lhs = q.lhs →
      r.rhs.head? ≠ q.rhs.head?) : members q.lhs s g.drafts = [q.draft] := by
  have hsingle : g.productions.filter (isMember q.lhs s ·.draft) = [q] := by
    refine List.perm_singleton.mp ((List.perm_ext_iff_of_nodup
      ((List.Nodup.of_map _ hg.distinct).filter _) (List.nodup_singleton q)).mpr fun r => ?_)
    rw [List.mem_filter, List.mem_singleton, isMember_iff, ← List.head?_eq_some_iff]
    constructor
    · rintro ⟨hr, hlhs, hhead⟩
      by_contra hne
      exact halone r hr hne hlhs (hhead.trans hs.symm)
    · rintro rfl
      exact ⟨hq, rfl, hs⟩
  rw [members, Grammar.drafts, List.filter_map]
  exact congrArg (List.map _) hsingle

/-- What a run that succeeds leaves. The block of a helper is not empty, because the helper has
alternatives. -/
theorem exists_layout_of_ok (hg : g.WellFormed) {helpers : List Symbol}
    (hok : (g.leftFactor options).result = .ok helpers) :
    let after := (g.leftFactor options).grammar.productions
    (∀ q ∈ g.productions, (q.rhs = [] ∨ ∀ r ∈ g.productions, r ≠ q → r.lhs = q.lhs →
      r.rhs.head? ≠ q.rhs.head?) → q ∈ after) ∧
    ∃ part rest, after = part ++ rest ∧
      (part.map (·.key)).Sublist (g.productions.map (·.key)) ∧
      InPlace (fun h block => block ≠ [] ∧ ∀ key ∈ block, key.1 = h) helpers
        (rest.map (·.key)) := by
  obtain ⟨p, hp, htracks, rfl, heq⟩ := exists_tracks_of_ok hg hok
  have hlayout := Layout.factorAll options (Layout.start hg) g.symbols.nonterminals
  have hunfolding := unfolding_factorAll options (Unfolding.start hg) g.symbols.nonterminals
  rw [hp] at hlayout hunfolding
  obtain ⟨-, ⟨part, rest, hkeys, hpart, hrest⟩, hempty, halone⟩ := hlayout
  rw [heq, htracks.productions_commit hg]
  refine ⟨fun q hq hcase => Grammar.mem_numbered ?_, ?_⟩
  · cases hrhs : q.rhs with
    | nil => exact hempty q.draft (List.mem_map_of_mem hq) hrhs
    | cons s γ =>
        have hs : q.rhs.head? = some s := by rw [hrhs]; rfl
        have hcase := hcase.resolve_left (by rw [hrhs]; exact List.cons_ne_nil s γ)
        have hmembers := halone q.lhs s q.draft (SymbolTable.contains_of_kind? (hg.admits q hq).1)
          (members_drafts_eq_singleton hg hq hs hcase)
        exact List.mem_of_mem_filter (hmembers ▸ List.mem_singleton_self q.draft)
  · have hnonempty : InPlace (fun h block => block ≠ [] ∧ ∀ key ∈ block, key.1 = h) p.helpers
        rest := by
      refine hrest.ne_nil_of_nodup htracks.nodup_helpers fun h hh => ?_
      -- The helper has an alternative, and no draft of the first part is its own: those have the
      -- left sides of the grammar.
      obtain ⟨u, hu⟩ := Multiset.card_pos_iff_exists_mem.mp
        (Nat.lt_of_lt_of_le Nat.zero_lt_two (hunfolding.branching h hh).1)
      obtain ⟨d, hd, hrule⟩ := mem_rulesOf_iff.mp (mem_alternatives_iff.mp hu)
      have hlhs : d.lhs = h := congrArg Rule.lhs hrule
      have hkey : d.key ∈ part ++ rest := hkeys ▸ List.mem_map_of_mem hd
      refine ⟨d.key, (List.mem_append.mp hkey).resolve_left fun hmem => ?_, hlhs⟩
      obtain ⟨q, hq, hqd⟩ := List.mem_map.mp (hpart.subset hmem)
      refine htracks.not_contains_helper hh ?_
      rw [← hlhs, ← show q.lhs = d.lhs from congrArg Prod.fst hqd]
      exact SymbolTable.contains_of_kind? (hg.admits q hq).1
    rw [← Grammar.map_key_numbered g.id g.nextSerial] at hkeys
    obtain ⟨part, rest, hsplit, rfl, rfl⟩ := List.map_eq_append_iff.mp hkeys
    exact ⟨part, rest, hsplit, hpart, hnonempty⟩

end TopDown.Transform.Factoring
