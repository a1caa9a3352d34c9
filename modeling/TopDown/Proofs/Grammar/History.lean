import TopDown.Proofs.Transform.Rollback

/-!
# The history of a grammar

A grammar serves requests one after another: edits and transformations, granted or refused. In
every state that it comes to it is well-formed, and a serial number that it has given to one
production it gives to no other.

* `Issues n g g'`: from `g` to `g'` the grammar issues the next `n` serial numbers and no others.
  `issues_apply`, `issues_eliminateLeftRecursion` and `issues_leftFactor` are the steps.
* `issued_eq`: the IDs that are issued in the course of many requests are those of consecutive
  serial numbers.
* `wellFormed_serve`: well-formedness in every state, and IDs that stay gone.
-/

namespace TopDown.Grammar

open Transform

variable {g g' g'' : Grammar} {m n : Nat} {i : Production.Id}

/-! ## Issued IDs -/

def serials (owner : Identity) (first count : Nat) : List Production.Id :=
  (List.range' first count).map (Production.Id.mk owner)

theorem mem_serials_iff {owner : Identity} : i ∈ serials owner m n ↔
    i.owner = owner ∧ m ≤ i.serial ∧ i.serial < m + n := by
  obtain ⟨owner', serial⟩ := i
  simp only [serials, List.mem_map, List.mem_range'_1, Production.Id.mk.injEq]
  constructor
  · rintro ⟨_, hserial, rfl, rfl⟩
    exact ⟨rfl, hserial⟩
  · rintro ⟨rfl, hserial⟩
    exact ⟨serial, hserial, rfl, rfl⟩

theorem serials_append (owner : Identity) (first m n : Nat) :
    serials owner first m ++ serials owner (first + m) n = serials owner first (m + n) := by
  rw [serials, serials, serials, ← List.map_append, List.range'_append_1]

def issuedSince (before now : Grammar) : List Production.Id := now.ids.filter (· ∉ before.ids)

/-- On the way from `g` to `g'` the grammar keeps its identity and issues the next `n` serial
numbers. -/
structure Issues (n : Nat) (g g' : Grammar) : Prop where
  id : g'.id = g.id
  counter : g'.nextSerial = g.nextSerial + n
  issued : issuedSince g g' = serials g.id g.nextSerial n

theorem Issues.of_subset (hid : g'.id = g.id) (hcounter : g'.nextSerial = g.nextSerial)
    (hids : g'.ids ⊆ g.ids) : Issues 0 g g' where
  id := hid
  counter := hcounter
  issued := List.filter_eq_nil_iff.mpr fun _ hmem hnot => of_decide_eq_true hnot (hids hmem)

theorem Issues.refl (g : Grammar) : Issues 0 g g := .of_subset rfl rfl fun _ hi => hi

/-- What is issued depends on the identity, the counter and the IDs of a grammar alone. -/
theorem Issues.of_eq (hid : g'.id = g.id) (hcounter : g'.nextSerial = g.nextSerial)
    (hids : g'.ids = g.ids) (h : Issues n g' g'') : Issues n g g'' where
  id := h.id.trans hid
  counter := h.counter.trans (congrArg (· + n) hcounter)
  issued := by
    rw [issuedSince, ← hids, ← hid, ← hcounter]
    exact h.issued

/-! ## Edits -/

/-- On the way from `g` to `g'` the grammar appends productions with the next `n` serial
numbers. -/
structure Appends (n : Nat) (g g' : Grammar) : Prop where
  id : g'.id = g.id
  counter : g'.nextSerial = g.nextSerial + n
  ids : g'.ids = g.ids ++ serials g.id g.nextSerial n

theorem Appends.refl (g : Grammar) : Appends 0 g g := ⟨rfl, rfl, (List.append_nil _).symm⟩

theorem Appends.trans (h : Appends m g g') (h' : Appends n g' g'') : Appends (m + n) g g'' where
  id := h'.id.trans h.id
  counter := by rw [h'.counter, h.counter, Nat.add_assoc]
  ids := by rw [h'.ids, h.ids, h.id, h.counter, List.append_assoc, serials_append]

theorem Appends.issues (h : Appends n g g') (hg : g.WellFormed) : Issues n g g' where
  id := h.id
  counter := h.counter
  issued := by
    have hold : g.ids.filter (· ∉ g.ids) = [] :=
      List.filter_eq_nil_iff.mpr fun _ hmem hnot => of_decide_eq_true hnot hmem
    rw [issuedSince, h.ids, List.filter_append, hold, List.nil_append, List.filter_eq_self]
    intro i hi
    refine decide_eq_true fun hmem => ?_
    exact Nat.not_le.mpr (hg.of_mem_ids hmem).2 (mem_serials_iff.mp hi).2.1

theorem appends_addProduction {label : String} {lhs : Symbol} {rhs : List Symbol}
    (hok : g.addProduction label lhs rhs = .ok (i, g')) : Appends 1 g g' := by
  obtain ⟨-, heq⟩ := grant_eq_ok_iff.mp hok
  obtain ⟨-, rfl⟩ := Prod.mk.inj heq
  exact ⟨rfl, rfl, List.map_append⟩

theorem appends_runChain (g : Grammar) (lhs : Symbol) (pending : Option String)
    (steps : List ChainStep) : ∃ n, Appends n g (g.runChain lhs pending steps).1 := by
  induction steps generalizing g lhs pending with
  | nil => exact ⟨0, .refl g⟩
  | cons step steps ih =>
      cases step with
      | rule lhs' =>
          unfold runChain
          split
          · exact ⟨0, .refl g⟩
          · exact ih g lhs' none
      | label label => exact ih g lhs (some label)
      | alternative rhs =>
          unfold runChain
          split
          · exact ⟨0, .refl g⟩
          · rename_i hok
            obtain ⟨n, hn⟩ := ih _ lhs none
            exact ⟨1 + n, (appends_addProduction hok).trans hn⟩

/-- Of the IDs that drafts are given, the new ones are those of consecutive serial numbers. -/
theorem filter_numbered {owner : Identity} {serial : Nat} {kept : List Production.Id}
    {drafts : List Draft} (horigins : ∀ i ∈ drafts.filterMap (·.origin), i ∈ kept)
    (hkept : ∀ i ∈ kept, i.serial < serial) :
    ((numbered owner serial drafts).map (·.id)).filter (· ∉ kept) =
      serials owner serial (drafts.countP (·.origin.isNone)) := by
  induction drafts generalizing serial with
  | nil => rfl
  | cons d drafts ih =>
      unfold numbered
      split
      · rename_i i hi
        simp only [List.filterMap_cons, hi, List.mem_cons, forall_eq_or_imp] at horigins
        rw [List.map_cons, List.filter_cons_of_neg (by simpa using horigins.1),
          List.countP_cons_of_neg (by simp [hi])]
        exact ih horigins.2 hkept
      · rename_i hnone
        simp only [List.filterMap_cons, hnone] at horigins
        -- This draft takes the next serial number, which is ahead of all that are kept.
        have hnew : (⟨owner, serial⟩ : Production.Id) ∉ kept := fun hmem =>
          Nat.lt_irrefl _ (hkept _ hmem)
        rw [List.map_cons, List.filter_cons_of_pos (by simpa using hnew),
          List.countP_cons_of_pos (by simp [hnone]),
          ih horigins fun i hi => Nat.lt_succ_of_lt (hkept i hi)]
        rw [Nat.add_comm _ 1, ← serials_append]
        rfl

theorem issues_replaceProductions (hg : g.WellFormed) {drafts : List Draft}
    (hok : g.replaceProductions drafts = .ok g') :
    Issues (drafts.countP (·.origin.isNone)) g g' := by
  obtain ⟨hfault, rfl⟩ := grant_eq_ok_iff.mp hok
  refine ⟨rfl, rfl, filter_numbered (fun i hi => ?_) fun i hi => (hg.of_mem_ids hi).2⟩
  obtain ⟨⟨p, hp, rfl⟩, -⟩ := (draftsFault?_eq_none_iff.mp hfault).2.1 i hi
  exact List.mem_map_of_mem hp

theorem issues_settle {x : Except Error Grammar} (hx : ∀ g', x = .ok g' → ∃ n, Issues n g g') :
    ∃ n, Issues n g (Edit.settle g x).1 := by
  cases x with
  | ok g' => exact hx g' rfl
  | error _ => exact ⟨0, .refl g⟩

theorem issues_apply (hg : g.WellFormed) (edit : Edit) : ∃ n, Issues n g (edit.apply g).1 := by
  -- Most edits leave the productions and the counter alone.
  have hsymbols : ∀ table : SymbolTable, table.id = g.symbols.id →
      ∃ n, Issues n g { g with symbols := table } :=
    fun _ hid => ⟨0, .of_subset hid rfl fun _ hi => hi⟩
  have hmap : ∀ (i : Production.Id) (f : Production → Production), (∀ p, (f p).id = p.id) →
      ∃ n, Issues n g (g.mapProduction i f) :=
    fun i f hf => ⟨0, .of_subset rfl rfl fun _ hi => ids_mapProduction hf ▸ hi⟩
  cases edit with
  | addSymbol kind name => exact hsymbols _ rfl
  | addSymbols kind names => exact hsymbols _ SymbolTable.id_addAll
  | renameSymbol s name =>
      refine issues_settle fun g' hok => ?_
      obtain ⟨-, rfl⟩ := grant_eq_ok_iff.mp hok
      refine hsymbols _ ?_
      cases hr : g.symbols.rename? s name with
      | none => rfl
      | some table => exact SymbolTable.id_of_rename? hr
  | eraseSymbol s =>
      rw [Edit.apply]
      split
      · rename_i hok
        unfold eraseSymbol at hok
        split at hok
        · cases hok
        · rename_i table herase
          obtain ⟨-, hsome⟩ := grant_eq_ok_iff.mp hok
          cases hsome
          exact hsymbols table (SymbolTable.id_of_erase? herase)
      · exact ⟨0, .refl g⟩
      · exact ⟨0, .refl g⟩
  | setStart s =>
      refine issues_settle fun g' hok => ?_
      obtain ⟨-, rfl⟩ := grant_eq_ok_iff.mp hok
      exact ⟨0, .of_subset rfl rfl fun _ hi => hi⟩
  | clearStart => exact ⟨0, .of_subset rfl rfl fun _ hi => hi⟩
  | addProduction label lhs rhs =>
      rw [Edit.apply]
      split
      · rename_i hok
        exact ⟨1, (appends_addProduction hok).issues hg⟩
      · exact ⟨0, .refl g⟩
  | build lhs steps =>
      obtain ⟨n, hn⟩ := appends_runChain g lhs none (.rule lhs :: steps)
      have hbuild : Issues n g (g.build lhs steps).1 := hn.issues hg
      rw [Edit.apply]
      split
      · rename_i heq
        rw [heq] at hbuild
        exact ⟨n, hbuild⟩
      · rename_i heq
        rw [heq] at hbuild
        exact ⟨n, hbuild⟩
  | eraseProduction i =>
      rw [Edit.apply]
      split
      · rename_i hsome
        obtain ⟨_, -, rfl⟩ := Option.map_eq_some_iff.mp hsome
        exact ⟨0, .of_subset rfl rfl (List.eraseP_sublist.map Production.id).subset⟩
      · exact ⟨0, .refl g⟩
  | setLhs i lhs =>
      refine issues_settle fun g' hok => ?_
      obtain ⟨-, rfl⟩ := grant_eq_ok_iff.mp hok
      exact hmap i _ fun _ => rfl
  | setRhs i rhs =>
      refine issues_settle fun g' hok => ?_
      obtain ⟨-, rfl⟩ := grant_eq_ok_iff.mp hok
      exact hmap i _ fun _ => rfl
  | setLabel i label =>
      refine issues_settle fun g' hok => ?_
      obtain ⟨-, rfl⟩ := grant_eq_ok_iff.mp hok
      exact hmap i _ fun _ => rfl
  | replaceProductions drafts =>
      exact issues_settle fun g' hok => ⟨_, issues_replaceProductions hg hok⟩

/-! ## Transformations -/

theorem Reverts.issues (h : Reverts g g') : Issues 0 g g' := by
  refine .of_subset h.id h.nextSerial ?_
  rw [ids, ids, h.productions]
  exact fun _ hi => hi

theorem issues_commit {p : Progress} (hp : p.Tracks g) (hg : g.WellFormed) :
    ∃ n, Issues n g p.commit.grammar := by
  cases hchanged : p.changed with
  | false =>
      rw [(hp.commit_of_unchanged hchanged).1]
      exact ⟨0, .refl g⟩
  | true =>
      have hok : p.grammar.replaceProductions p.drafts = .ok _ :=
        grant_eq_ok_iff.mpr ⟨hp.draftsFault?_eq_none hg, rfl⟩
      have hissues := issues_replaceProductions (hp.wellFormed hg) hok
      have hcounter : p.grammar.nextSerial = g.nextSerial := by rw [hp.grammar_eq]
      have hids : p.grammar.ids = g.ids := by rw [hp.grammar_eq, ids, ids]
      rw [Progress.commit, if_pos hchanged, hok]
      exact ⟨_, hissues.of_eq hp.id_eq hcounter hids⟩

theorem issues_leftFactor (hg : g.WellFormed) (options : Options) :
    ∃ n, Issues n g (g.leftFactor options).grammar := by
  cases hresult : (g.leftFactor options).result with
  | error error => exact ⟨0, (reverts_leftFactor options hg hresult).issues⟩
  | ok helpers =>
      have hrun := Factoring.tracks_factorAll options (.start hg #[]) g.symbols.nonterminals
      obtain ⟨p, hp, heq⟩ := Factoring.exists_of_result_eq_ok hresult
      rw [hp] at hrun
      rw [heq]
      exact issues_commit hrun hg

theorem issues_eliminateLeftRecursion (hg : g.WellFormed) (options : Options) :
    ∃ n, Issues n g (g.eliminateLeftRecursion options).grammar := by
  cases hresult : (g.eliminateLeftRecursion options).result with
  | error error => exact ⟨0, (reverts_eliminateLeftRecursion options hg hresult).issues⟩
  | ok helpers =>
      obtain ⟨journal, p, hp, journal', heq⟩ := Elimination.exists_of_result_eq_ok hresult
      have hrun := Elimination.tracks_treatAll options
        (g.system.vanishingCorners g.system.nullable) (.start hg journal) []
        g.symbols.nonterminals
      rw [hp] at hrun
      rw [heq]
      exact issues_commit (Progress.Tracks.journal hrun journal') hg

/-! ## Requests in turn -/

/-- What a grammar is asked for in place. -/
inductive Request where
  | edit (change : Edit)
  | eliminateLeftRecursion (options : Options)
  | leftFactor (options : Options)
deriving DecidableEq, Repr

/-- The grammar after a request, whether it was granted or not. -/
def Request.apply (g : Grammar) : Request → Grammar
  | edit change => (change.apply g).1
  | eliminateLeftRecursion options => (g.eliminateLeftRecursion options).grammar
  | leftFactor options => (g.leftFactor options).grammar

def serve (g : Grammar) (requests : List Request) : Grammar := requests.foldl Request.apply g

/-- The IDs that are issued in the course of requests, in order. -/
def issued (g : Grammar) : List Request → List Production.Id
  | [] => []
  | request :: requests =>
    issuedSince g (request.apply g) ++ (request.apply g).issued requests

theorem Reachable.request (h : g.Reachable) (request : Request) :
    (request.apply g).Reachable := by
  cases request with
  | edit change => exact h.edited change
  | eliminateLeftRecursion options => exact h.eliminated options
  | leftFactor options => exact h.factored options

theorem Reachable.serve (h : g.Reachable) (requests : List Request) :
    (g.serve requests).Reachable := by
  induction requests generalizing g with
  | nil => exact h
  | cons request requests ih => exact ih (h.request request)

theorem issues_request (hg : g.WellFormed) (request : Request) :
    ∃ n, Issues n g (request.apply g) := by
  cases request with
  | edit change => exact issues_apply hg change
  | eliminateLeftRecursion options => exact issues_eliminateLeftRecursion hg options
  | leftFactor options => exact issues_leftFactor hg options

/-- **Serial numbers are issued in turn.** Requests leave a grammar its identity and issue the
serial numbers from its counter on, without a gap. -/
theorem issued_eq (hg : g.Reachable) (requests : List Request) : ∃ n,
    (g.serve requests).id = g.id ∧ (g.serve requests).nextSerial = g.nextSerial + n ∧
      g.issued requests = serials g.id g.nextSerial n := by
  induction requests generalizing g with
  | nil => exact ⟨0, rfl, rfl, rfl⟩
  | cons request requests ih =>
      obtain ⟨m, hstep⟩ := issues_request hg.wellFormed request
      obtain ⟨n, hid, hcounter, hissued⟩ := ih (hg.request request)
      refine ⟨m + n, hid.trans hstep.id, ?_, ?_⟩
      · rw [← Nat.add_assoc, ← hstep.counter]
        exact hcounter
      · rw [issued, hissued, hstep.issued, hstep.id, hstep.counter, serials_append]

/-- A production that is there in the end was there at the start or was issued on the way. -/
theorem mem_ids_serve {requests : List Request} (hi : i ∈ (g.serve requests).ids) :
    i ∈ g.ids ∨ i ∈ g.issued requests := by
  induction requests generalizing g with
  | nil => exact Or.inl hi
  | cons request requests ih =>
      rw [issued, List.mem_append]
      rcases ih hi with hmem | hmem
      · by_cases hold : i ∈ g.ids
        · exact Or.inl hold
        · exact Or.inr (Or.inl (List.mem_filter.mpr ⟨hmem, decide_eq_true hold⟩))
      · exact Or.inr (Or.inr hmem)

theorem WellFormed.nodup_serial (hg : g.WellFormed) : (g.ids.map (·.serial)).Nodup := by
  refine hg.distinct.map_on fun i hi j hj hserial => ?_
  have howner : i.owner = j.owner := (hg.of_mem_ids hi).1.trans (hg.of_mem_ids hj).1.symm
  exact congrArg₂ Production.Id.mk howner hserial

/-- No serial number is issued twice. -/
theorem nodup_serial_issued (hg : g.Reachable) (requests : List Request) :
    ((g.ids ++ g.issued requests).map (·.serial)).Nodup := by
  obtain ⟨n, -, -, hissued⟩ := issued_eq hg requests
  have hnew : (g.issued requests).map (·.serial) = List.range' g.nextSerial n := by
    rw [hissued, serials, List.map_map]
    exact List.map_id _
  rw [List.map_append, hnew]
  refine List.nodup_append'.mpr ⟨hg.wellFormed.nodup_serial, List.nodup_range', ?_⟩
  intro serial hold hrange
  obtain ⟨i, hi, rfl⟩ := List.mem_map.mp hold
  exact Nat.not_lt.mpr (List.mem_range'_1.mp hrange).1 (hg.wellFormed.of_mem_ids hi).2

/-- An ID of the past that names no production any more will name none. -/
theorem production?_serve_eq_none (hg : g.Reachable) {between : List Request}
    (hpast : i ∈ g.ids) (hgone : (g.serve between).production? i = none)
    (later : List Request) : ((g.serve between).serve later).production? i = none := by
  rw [production?_eq_none_iff] at hgone ⊢
  intro hback
  obtain ⟨m, -, hcounter, -⟩ := issued_eq hg between
  obtain ⟨n, -, -, hissued⟩ := issued_eq (hg.serve between) later
  rcases mem_ids_serve hback with hmem | hmem
  · exact hgone hmem
  · rw [hissued, mem_serials_iff, hcounter] at hmem
    have hlt := (hg.wellFormed.of_mem_ids hpast).2
    omega

/-- **The history of a grammar.** Whatever a grammar is asked for, it is well-formed in every
state and keeps its identity; the serial counter moves on by one for each ID that is issued, no
serial number is issued twice, and an ID that names no production any more will name none. -/
theorem wellFormed_serve (hg : g.Reachable) (requests : List Request) :
    (g.serve requests).WellFormed ∧ (g.serve requests).id = g.id ∧
    (g.serve requests).nextSerial = g.nextSerial + (g.issued requests).length ∧
    ((g.ids ++ g.issued requests).map (·.serial)).Nodup ∧
    ∀ i, (g.production? i).isSome → (g.serve requests).production? i = none →
      ∀ later, ((g.serve requests).serve later).production? i = none := by
  obtain ⟨n, hid, hcounter, hissued⟩ := issued_eq hg requests
  refine ⟨(hg.serve requests).wellFormed, hid, ?_, nodup_serial_issued hg requests, ?_⟩
  · rw [hcounter, hissued, serials, List.length_map, List.length_range']
  · intro i hsome hgone later
    refine production?_serve_eq_none hg ?_ hgone later
    by_contra hnot
    rw [production?_eq_none_iff.mpr hnot] at hsome
    cases hsome

/-- After `S → a` is erased from the sample, the production that is added gets a serial number of
its own, and no transformation brings the ID of `S → a` back. -/
theorem wellFormed_serve_sample :
    let start : Symbol := ⟨⟨1⟩, 0⟩
    let gone : Production.Id := ⟨⟨1⟩, 1⟩
    let requests : List Request :=
      [.edit (.eraseProduction gone), .edit (.addProduction "again" start [⟨⟨1⟩, 1⟩])]
    (sample.serve requests).WellFormed ∧ sample.issued requests = [⟨⟨1⟩, 3⟩] ∧
      ((sample.serve requests).serve [.eliminateLeftRecursion {}, .leftFactor {}]).production?
        gone = none := by
  intro start gone requests
  obtain ⟨hwf, -, -, -, hstays⟩ := wellFormed_serve reachable_sample requests
  exact ⟨hwf, by decide +kernel, hstays gone (by decide +kernel) (by decide +kernel) _⟩

end TopDown.Grammar
