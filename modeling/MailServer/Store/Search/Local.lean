import MailServer.Store.Search.Loop

/-!
# Evaluating a filter list in memory (`store/src/search/local.rs`)

`SearchQuery::filter` on a well-nested list of document sets, against the meaning of its tree.  The
order of the results (`comparators`) is not modelled.

The short circuit advances to the *next* `End`, which is the `End` of a nested group when one follows
in the group that became empty.  `filter_eq_eval` says when this is harmless.
-/

namespace MailServer.Store.Search

open MailServer.Lib

variable {ι : Type} [DecidableEq ι]

/-- `SearchQuery`, the fields the evaluation reads. -/
structure SearchQuery (ι : Type) where
  filters : List (SearchFilter ι)
  mask : Finset ι

open SearchQuery

/-- The leaves here: document sets, and `SearchFilter::Operator { .. } => continue`. -/
def localEvaluator : Evaluator Empty ι where
  marker _ := .ok ()
  leaf
    | .documentSet set => .ok (.result (some set))
    | _ => .ok .skip

/-- `SearchQuery::filter`, the bitmap of the results. -/
def SearchQuery.filter (q : SearchQuery ι) : Finset ι :=
  if q.filters.isEmpty then q.mask
  else
    match evalLoop localEvaluator q.mask q.filters ⟨.and, none⟩ [] with
    | .ok state => state.bm.getD ∅ ∩ q.mask
    | .error e => e.elim

/-- A tree of document sets. -/
abbrev SetTree (ι : Type) := Nested LogicalOp (Finset ι)

namespace SetTree

/-- The filter list of a tree of document sets. -/
def filters (t : SetTree ι) : List (SearchFilter ι) := t.tokens.map (embTok .documentSet)

/-- The bitmap of a document set. -/
def val (set : Finset ι) : Leaf ι := .result (some set)

omit [DecidableEq ι] in
theorem val_eq (set : Finset ι) : val set = .result (some set) := rfl

/-- Every nested `And` and `Not` group has a member. -/
abbrev Filled (t : SetTree ι) : Prop := Search.Filled val t

/-- No `And` below an `Or` or a `Not` becomes empty in front of a nested group of its own. -/
abbrev GuardedTop (mask : Finset ι) (t : SetTree ι) : Prop :=
  Search.GuardedTop val mask ⟨.and, none⟩ t

/-- The same for the members of an `And` that stands below an `Or`. -/
abbrev Guarded (mask : Finset ι) (members : SetTree ι) : Prop :=
  Search.Guarded val mask ⟨.and, none⟩ members

/-- The documents of the mask that the list selects. -/
def eval (mask : Finset ι) (t : SetTree ι) : Finset ι :=
  mask.filter fun i => selects val mask i .and t

/-- The members of an `And` inside an `Or`, the whole mask beside it, and one more document set behind
the `Or`. -/
def inOr (members : SetTree ι) (mask last : Finset ι) : SetTree ι := Search.inOr members mask last

end SetTree

omit [DecidableEq ι] in
theorem localEvaluator_resolves :
    Resolves (localEvaluator : Evaluator Empty ι) .documentSet SetTree.val :=
  ⟨fun _ => rfl⟩

omit [DecidableEq ι] in
theorem localEvaluator_accepts (t : SetTree ι) : (localEvaluator : Evaluator Empty ι).Accepts t := by
  induction t with
  | nil => trivial
  | leaf x rest ih => exact ih
  | group op m rest ihm ih => exact ⟨rfl, ihm, ih⟩

variable {mask : Finset ι} {members : SetTree ι}

theorem filter_of_evalLoop {t : SetTree ι} {r : State ι} (hne : t ≠ .nil)
    (h : evalLoop localEvaluator mask t.filters ⟨.and, none⟩ [] = .ok r) :
    filter ⟨t.filters, mask⟩ = r.bm.getD ∅ ∩ mask := by
  have hne' : t.filters.isEmpty = false := by
    cases t with
    | nil => exact absurd rfl hne
    | leaf x rest => rfl
    | group op m rest => rfl
  simp [filter, hne', h]

omit [DecidableEq ι] in
theorem hasMember_of_ne_nil {t : SetTree ι} (h : t ≠ .nil) : HasMember SetTree.val t := by
  cases t with
  | nil => exact absurd rfl h
  | leaf x rest => exact Or.inl (by simp [SetTree.val])
  | group op m rest => trivial

/-- **The bitmap of a guarded list** is the meaning of its tree. -/
theorem filter_of_guardedTop (t : SetTree ι) (mask : Finset ι) (hf : t.Filled)
    (hg : t.GuardedTop mask) : filter ⟨t.filters, mask⟩ = t.eval mask := by
  by_cases hne : t = .nil
  · subst hne
    simp [filter, SetTree.filters, SetTree.eval]
  · obtain ⟨r, h1, h2⟩ := evalLoop_top localEvaluator_resolves t (localEvaluator_accepts t) hg
    rw [filter_of_evalLoop hne h1, h2]
    ext i
    simp only [Finset.mem_inter, SetTree.eval, Finset.mem_filter]
    rw [and_comm]
    refine and_congr_right fun hi => ?_
    obtain ⟨d, h3, h4⟩ := foldsTo hi t hf ⟨.and, none⟩ (hasMember_of_ne_nil hne)
    rw [h3, Option.getD_some, ← h4, decide_eq_true_iff]

theorem eval_inOr (members : SetTree ι) (mask last : Finset ι) :
    (members.inOr mask last).eval mask = mask ∩ last := by
  ext i
  rw [SetTree.eval, SetTree.inOr, Finset.mem_filter, Finset.mem_inter]
  refine and_congr_right fun hi => ?_
  rw [selects_inOr (SetTree.val_eq mask) (SetTree.val_eq last)]
  simp [hi]

theorem filter_inOr_of_guarded (hg : members.Guarded mask) (last : Finset ι) :
    filter ⟨(members.inOr mask last).filters, mask⟩ = mask ∩ last := by
  obtain ⟨r, h1, h2⟩ := evalLoop_inOr_of_guarded localEvaluator_resolves (SetTree.val_eq mask)
    (SetTree.val_eq last) rfl rfl (localEvaluator_accepts members) hg
  have hne : members.inOr mask last ≠ .nil := by simp [SetTree.inOr, Search.inOr]
  rw [filter_of_evalLoop hne h1, h2]
  ext i
  simp only [Finset.mem_inter, Finset.mem_union]
  tauto

theorem filter_inOr_of_not_guarded (hg : ¬ members.Guarded mask) (last last' : Finset ι) :
    filter ⟨(members.inOr mask last).filters, mask⟩ =
      filter ⟨(members.inOr mask last').filters, mask⟩ := by
  have h := evalLoop_inOr_of_not_guarded localEvaluator_resolves rfl rfl
    (localEvaluator_accepts members) hg mask last last'
  exact congrArg (fun r : Except Empty (State ι) => match r with
    | .ok state => state.bm.getD ∅ ∩ mask
    | .error e => e.elim) h

/-- **When the in-memory evaluation is the meaning of the list.**  It is whenever no `And` below an
`Or` or a `Not` becomes empty in front of a nested group of its own (and no nested `And` or `Not` is
without members).  And that is what matters: the members of an `And` leave the enclosing groups alone,
over a mask with a document, exactly when they are guarded in this way. -/
theorem filter_eq_eval (t : SetTree ι) (mask : Finset ι) :
    (t.Filled → t.GuardedTop mask → filter ⟨t.filters, mask⟩ = t.eval mask) ∧
      (mask.Nonempty → ((∀ last, filter ⟨(t.inOr mask last).filters, mask⟩ =
        (t.inOr mask last).eval mask) ↔ t.Guarded mask)) := by
  refine ⟨filter_of_guardedTop t mask, fun hm => ⟨fun h => ?_, fun hg last => ?_⟩⟩
  · by_contra hg
    have h' := filter_inOr_of_not_guarded hg mask ∅
    rw [h, h, eval_inOr, eval_inOr, Finset.inter_self, Finset.inter_empty] at h'
    exact hm.ne_empty h'
  · rw [filter_inOr_of_guarded hg, eval_inOr]

/-- `Or [And [{2}, {3}], {2}]` is guarded; the members `{}, Or [{1}]` of an `And` are not. -/
theorem filter_eq_eval_at :
    filter ⟨SetTree.filters (.group .or (.group .and (.leaf ({2} : Finset UInt32)
      (.leaf {3} .nil)) (.leaf {2} .nil)) .nil), {1, 2}⟩ = {2} ∧
    ¬ ∀ last, filter ⟨(SetTree.inOr (.leaf (∅ : Finset UInt32)
        (.group .or (.leaf {1} .nil) .nil)) {1, 2} last).filters, {1, 2}⟩ =
      (SetTree.inOr (.leaf (∅ : Finset UInt32)
        (.group .or (.leaf {1} .nil) .nil)) {1, 2} last).eval {1, 2} := by
  refine ⟨?_, fun h => ?_⟩
  · rw [(filter_eq_eval _ _).1 (by decide) (by decide)]
    decide
  · exact absurd (((filter_eq_eval _ _).2 (by decide)).mp h) (by decide)

/-- `Or [And [{}, Or [{1}]], {2}]` selects document 2.  The skip lands on the `End` of the inner `Or`,
which closes the `And`; the `End` of the `And` closes the outer `Or`, and the top level, empty by then,
skips `{2}`. -/
theorem filter_loses_member :
    let t : SetTree UInt32 := .group .or (.group .and (.leaf ∅ (.group .or (.leaf {1} .nil) .nil))
      (.leaf {2} .nil)) .nil
    filter ⟨t.filters, {1, 2}⟩ = ∅ ∧ t.eval {1, 2} = {2} := by
  refine ⟨?_, by decide⟩
  simp [filter, SetTree.filters, embTok, SearchFilter.ofTok, evalLoop, advance,
    State.Exits, State.add, applyResult, skipToEnd, localEvaluator, bind, Except.bind]

end MailServer.Store.Search
