import TopDown.Transform.Progress

/-!
# Left-factoring

Alternatives of a nonterminal that start with the same symbol are merged,

    N → γ δ₁ | … | γ δₙ

becomes

    N → γ N'
    N' → δ₁ | … | δₙ

where `γ` is the longest common beginning of all of them. This goes on until no two alternatives
of a nonterminal start with the same symbol, helpers included.

* `Factoring.sharedHead?` is the first symbol with which two alternatives of a nonterminal start.
* `Factoring.merge` is one step on a list of drafts; `Factoring.length_merge` says that it makes
  the list longer by exactly one, which is why the steps end at the limit.
* `Grammar.leftFactor` takes the nonterminals in creation order, and helpers after them.
-/

namespace TopDown.Transform

namespace Factoring

/-! ## One step on a list of drafts -/

def heads (lhs : Symbol) (drafts : List Draft) : List Symbol :=
  (drafts.filter (·.lhs = lhs)).filterMap (·.rhs.head?)

/-- The first symbol with which two alternatives of a nonterminal start. -/
def sharedHead? (lhs : Symbol) (drafts : List Draft) : Option Symbol :=
  let all := heads lhs drafts
  all.find? fun s => 2 ≤ all.count s

def isMember (lhs head : Symbol) (d : Draft) : Bool := d.lhs = lhs && d.rhs.head? = some head

def members (lhs head : Symbol) (drafts : List Draft) : List Draft :=
  drafts.filter (isMember lhs head)

/-- The longest common beginning of two lists. -/
def common : List Symbol → List Symbol → List Symbol
  | a :: as, b :: bs => if a = b then a :: common as bs else []
  | _, _ => []

def commonOfAll : List (List Symbol) → List Symbol
  | [] => []
  | rhs :: rhss => rhss.foldl common rhs

/-- The longest common beginning of the alternatives that start with a symbol. -/
def beginning (lhs head : Symbol) (drafts : List Draft) : List Symbol :=
  commonOfAll ((members lhs head drafts).map (·.rhs))

/-- Puts one draft in place of the first that fits and drops the others that fit. -/
def mergeInto (fits : Draft → Bool) (merged : Draft → Draft) : List Draft → List Draft
  | [] => []
  | d :: drafts =>
    if fits d then merged d :: drafts.filter (!fits ·) else d :: mergeInto fits merged drafts

/-- Merges the alternatives of `lhs` that start with `head`: one alternative with their common
beginning and the helper stands in place of the first, and the helper has their ends. -/
def merge (lhs head helper : Symbol) (name : String) (drafts : List Draft) : List Draft :=
  let shared := beginning lhs head drafts
  mergeInto (isMember lhs head)
      (fun d => { label := d.label, lhs, rhs := shared ++ [helper] }) drafts ++
    helperDrafts helper name ((members lhs head drafts).map (·.rhs.drop shared.length))

theorem length_mergeInto {fits : Draft → Bool} (merged : Draft → Draft) {drafts : List Draft}
    (h : drafts.any fits) :
    (mergeInto fits merged drafts).length + drafts.countP fits = drafts.length + 1 := by
  induction drafts with
  | nil => simp at h
  | cons d drafts ih =>
    by_cases hd : fits d
    · have := List.length_eq_countP_add_countP fits (l := drafts)
      simp only [mergeInto, hd, if_true, List.length_cons, List.countP_cons,
        ← List.countP_eq_length_filter, Bool.not_eq_true] at this ⊢
      simp only [Bool.decide_eq_false] at this
      omega
    · have := ih (by simpa [hd] using h)
      simp only [mergeInto, hd, List.length_cons, List.countP_cons]
      simp
      omega

/-- A merge makes the list of drafts longer by exactly one. -/
theorem length_merge {lhs head helper : Symbol} {name : String} {drafts : List Draft}
    (h : drafts.any (isMember lhs head)) :
    (merge lhs head helper name drafts).length = drafts.length + 1 := by
  have := length_mergeInto
    (fun d => { label := d.label, lhs, rhs := beginning lhs head drafts ++ [helper] }) h
  simp only [merge, helperDrafts, members, List.length_append, List.length_mapIdx,
    List.length_map, ← List.countP_eq_length_filter]
  omega

/-- A shared head is the first symbol of some alternative. -/
theorem any_isMember_of_sharedHead? {lhs head : Symbol} {drafts : List Draft}
    (h : sharedHead? lhs drafts = some head) : drafts.any (isMember lhs head) := by
  have hmem := List.mem_of_find?_eq_some h
  simp only [heads, List.mem_filterMap, List.mem_filter, decide_eq_true_eq] at hmem
  obtain ⟨d, ⟨hd, hlhs⟩, hhead⟩ := hmem
  simp only [List.any_eq_true]
  exact ⟨d, hd, by simp [isMember, hlhs, hhead]⟩

/-! ## All nonterminals in turn -/

def prepare (options : Options) (lhs head : Symbol) (p : Progress) : Symbol × Progress :=
  let alternatives := (members lhs head p.drafts).length
  let shared := (beginning lhs head p.drafts).length
  let issued := p.introduce options lhs
  let events :=
    [.factoring alternatives (issued.2.name lhs) shared,
      .endsMoved (issued.2.name issued.1) alternatives (issued.2.name lhs)]
  (issued.1, issued.2.noteAll events)

/-- Merges the alternatives of `lhs` that start with `head`, for which a helper was issued. -/
def step (options : Options) (lhs head : Symbol) (prepared : Symbol × Progress) :
    Except Failure Progress :=
  let (helper, p) := prepared
  p.submit options lhs (merge lhs head helper (p.name helper) p.drafts)

theorem length_drafts_step {options : Options} {lhs head : Symbol} {p q : Progress}
    (hmem : p.drafts.any (isMember lhs head))
    (h : step options lhs head (prepare options lhs head p) = .ok q) :
    q.drafts.length = p.drafts.length + 1 ∧ q.drafts.length ≤ options.limit := by
  obtain ⟨hle, rfl⟩ := Progress.submit_eq_ok_iff.1 h
  exact ⟨by simpa [prepare] using length_merge hmem, hle⟩

/-- Factors the nonterminals of a queue. A nonterminal stays in front until no two of its
alternatives start with the same symbol, and each helper joins the queue at its end. -/
def factorAll (options : Options) (p : Progress) : List Symbol → Except Failure Progress
  | [] => .ok p
  | lhs :: queue =>
    match _shared : sharedHead? lhs p.drafts with
    | none => factorAll options p queue
    | some head =>
      let prepared := prepare options lhs head p
      match _merged : step options lhs head prepared with
      | .error failure => .error failure
      | .ok p => factorAll options p (lhs :: queue ++ [prepared.1])
termination_by queue => (options.limit - p.drafts.length, queue.length)
decreasing_by
  · exact Prod.Lex.right _ (by simp)
  · have := length_drafts_step (any_isMember_of_sharedHead? _shared) _merged
    exact Prod.Lex.left _ _ (by omega)

end Factoring

end TopDown.Transform

namespace TopDown

open Transform Transform.Factoring in
def Grammar.leftFactor (g : Grammar) (options : Options) : Outcome :=
  match factorAll options (.start g #[]) g.symbols.nonterminals with
  | .error failure => failure.abort
  | .ok p => p.commit

end TopDown
