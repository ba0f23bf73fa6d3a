import MailServer.Lib.Bytes
import MailServer.Store.Search.Local

/-!
# The internal search backend (`store/src/search/query.rs`)

`query_account` and `query_global` run the accumulate loop over filters whose operators are looked up
in the index.  The bitmaps the index answers with and the tokenizers are parameters (`Lookups`); the
order of the results (`comparators`) is not modelled.

* `accountOperator`, `globalOperator`: the bitmap of one operator, with the errors on values that do
  not fit the field.
* `queryAccount_eq`, `queryGlobal_eq`: what the loops compute on a guarded list.
* `query_eq_eval`: both, and that the guard is what matters to the groups around an `And`.
-/

namespace MailServer.Store.Search

open MailServer.Lib MailServer.Trc Option Tree

/-- `SEARCH_INDEX_MAX_FIELD_LEN`. -/
def SEARCH_INDEX_MAX_FIELD_LEN : ℕ := 128

/-- What the index and the tokenizers answer. -/
structure Lookups (ι : Type) where
  /-- `merge_bitmaps` / `merge_treemaps`: the documents of all (or, for a union, any) of the tokens. -/
  mergeBitmaps : (hashes : List String) → (field : SearchField) → (isUnion : Bool) →
    Except Error (Option (Finset ι))
  /-- `range_to_bitmap` / `range_to_treemap`. -/
  rangeToBitmap : (field : SearchField) → (matchValue : List UInt8) → (op : SearchOperator) →
    Except Error (Option (Finset ι))
  tokenizeText : Nlp.Language → String → List String
  /-- `Stemmer`: the words with their stems. -/
  stemmer : Nlp.Language → String → List (String × Option String)
  spaceTokenizer : String → List String

section

variable {ι : Type} [DecidableEq ι]

def unexpected (details : String) : Error := ⟨.unexpectedError, details⟩

/-- `for token in Stemmer::new(..)`: the documents that contain a form of every token. -/
def containsTokens (lookups : Lookups ι) (field : SearchField) :
    List (String × Option String) → Finset ι → Except Error (Finset ι)
  | [], result => .ok result
  | (word, stemmedWord) :: tokens, result => do
    let forms := [word, word ++ "*"] ++ stemmedWord.toList.map (· ++ "*")
    match ← lookups.mergeBitmaps forms field true with
    | none => return ∅
    | some union =>
      if result = ∅ then containsTokens lookups field tokens union
      else if result ∩ union = ∅ then return ∅
      else containsTokens lookups field tokens (result ∩ union)

/-- The bytes of a sort key: `value.into_bytes()` or `to_be_bytes()`. -/
def sortKey : SearchValue → Option (List UInt8)
  | .text value _ => some value.toUTF8.toList
  | .int v => some (beBytes 8 v.toUInt64.toNat)
  | .uint v => some (beBytes 8 v.toNat)
  | .boolean v => some [if v then 1 else 0]
  | .keyValues _ => none

/-- `SearchFilter::Operator` in `query_account`. -/
def accountOperator (lookups : Lookups ι) (field : SearchField) (op : SearchOperator)
    (value : SearchValue) : Except Error (Option (Finset ι)) :=
  if field.isText ∧ (op = .contains ∨ op = .equal) then
    match value with
    | .text value language =>
      if op = .equal then
        lookups.mergeBitmaps (lookups.tokenizeText language value) field false
      else do
        let result ← containsTokens lookups field (lookups.stemmer language value) ∅
        return if result ≠ ∅ then some result else none
    | _ => .error (unexpected "Expected text value for text field")
  else if field.isJson then
    match value with
    | .keyValues ((key, value) :: _) =>
      if value ≠ "" then
        lookups.mergeBitmaps ((lookups.spaceTokenizer value).map fun v => key ++ " " ++ v) field true
      else lookups.mergeBitmaps [key] field false
    -- an empty key-value list panics in the source; no query is built with one
    | _ => .error (unexpected "Expected text value for text field")
  else if field.isIndexed then
    match value, sortKey value with
    | .text .., some key => lookups.rangeToBitmap field (key.take SEARCH_INDEX_MAX_FIELD_LEN) op
    | _, some key => lookups.rangeToBitmap field key op
    | _, none => .error (unexpected "Expected non key-value for non-text field")
  else .error (unexpected ("Field " ++ field.debug ++ " is not indexed"))

/-- `SearchFilter::Operator` in `query_global`. -/
def globalOperator (lookups : Lookups ι) (field : SearchField) (op : SearchOperator)
    (value : SearchValue) : Except Error (Option (Finset ι)) :=
  if field.isText then
    match value with
    | .text value _ => lookups.mergeBitmaps (lookups.spaceTokenizer value) field false
    | _ => .error (unexpected "Expected text value for text field")
  else if field.isIndexed ∨ field = .id then
    match sortKey value with
    | some key => lookups.rangeToBitmap field key op
    | none => .error (unexpected "Expected non key-value for non-text field")
  else .error (unexpected ("Field " ++ field.debug ++ " is not indexed"))

def accountEvaluator (lookups : Lookups ι) : Evaluator Error ι where
  marker _ := .ok ()
  leaf
    | .operator field op value =>
      if field = .accountId then .ok .skip
      else (accountOperator lookups field op value).map .result
    | .documentSet bitmap => .ok (.result (some bitmap))
    | _ => .ok .skip

/-- `SearchFilter::DocumentSet(_) | SearchFilter::Not` is rejected. -/
def globalEvaluator (lookups : Lookups ι) : Evaluator Error ι where
  marker
    | .not => .error (unexpected "Unsupported filter in global search")
    | _ => .ok ()
  leaf
    | .operator field op value => (globalOperator lookups field op value).map .result
    | .documentSet _ => .error (unexpected "Unsupported filter in global search")
    | _ => .ok .skip

end

/-- The first `AccountId` operator with an unsigned value, `u32::MAX` when there is none. -/
def accountId (filters : List (SearchFilter UInt32)) : UInt32 :=
  (filters.findSome? fun
    | .operator .accountId _ (.uint id) => some id.toUInt32
    | _ => none).getD 0xFFFFFFFF

/-- `Store::query_account`, the bitmap of the results. -/
def queryAccount (index : UInt32 → Lookups UInt32) (query : SearchQuery UInt32) :
    Except Error (Finset UInt32) :=
  if accountId query.filters = 0xFFFFFFFF then
    .error (unexpected "Account ID must be specified before other filters")
  else if 1 < query.filters.length then do
    let state ← evalLoop (accountEvaluator (index (accountId query.filters))) query.mask query.filters
      ⟨.and, none⟩ []
    return state.bm.getD ∅ ∩ query.mask
  else .ok query.mask

/-- `Store::query_global`.  There is no mask: `Not` groups are rejected. -/
def queryGlobal (lookups : Lookups UInt64) (filters : List (SearchFilter UInt64)) :
    Except Error (Finset UInt64) := do
  let state ← evalLoop (globalEvaluator lookups) ∅ filters ⟨.and, none⟩ []
  return state.bm.getD ∅

/-! ## What the loops compute -/

section

variable {ι : Type} [DecidableEq ι] {ε : Type}

/-- The bitmap a leaf of the list contributes. -/
def Evaluator.val (ev : Evaluator ε ι) (x : LeafFilter ι) : Leaf ι :=
  match ev.leaf (.ofTok (.leaf x)) with
  | .ok leaf => leaf
  | .error _ => .skip

omit [DecidableEq ι] in
theorem total_resolves (ev : Evaluator ε ι) : Resolves ev.total id ev.val := by
  refine ⟨fun x => ?_⟩
  show ev.total.leaf (.ofTok (.leaf x)) = _
  unfold Evaluator.total Evaluator.val
  cases h : ev.leaf (.ofTok (.leaf x)) <;> simp only [h]

omit [DecidableEq ι] in
theorem total_accepts {ev : Evaluator ε ι} {t : Tree ι} (h : ev.Accepts t) : ev.total.Accepts t := by
  induction t with
  | nil => trivial
  | leaf x rest ih => exact ih h
  | group op m rest ihm ih => exact ⟨h.1, ihm h.2.1, ih h.2.2⟩

omit [DecidableEq ι] in
theorem embTok_id : (embTok id : Tok LogicalOp (LeafFilter ι) → SearchFilter ι) = .ofTok := by
  funext t
  rcases t with x | op | _
  · rfl
  · rfl
  · rfl

omit [DecidableEq ι] in
theorem map_embTok_id (t : Tree ι) : t.tokens.map (embTok id) = t.filters := by
  rw [embTok_id]
  rfl

variable {ev : Evaluator ε ι}

theorem evalLoop_filters {mask : Finset ι} {t : Tree ι} (hev : ev.Evaluates t.filters)
    (ha : ev.Accepts t) (hg : GuardedTop ev.val mask ⟨.and, none⟩ t) :
    ∃ r, evalLoop ev mask t.filters ⟨.and, none⟩ [] = .ok r ∧
      r.bm = (fold ev.val mask ⟨.and, none⟩ t).bm := by
  rw [evalLoop_total mask _ _ _ hev, ← map_embTok_id]
  exact evalLoop_top (total_resolves ev) t (total_accepts ha) hg

/-- The members of an `And` leave the groups around it alone exactly when they are guarded: beside
them an `Or` holds documents that `extract` sees, and behind the `Or` these documents, or none, are
selected. -/
theorem evalLoop_inOr_iff {mask w : Finset ι} {members : Tree ι} {beside absent : LeafFilter ι}
    (extract : Finset ι → Finset ι) (hne : extract w ≠ extract ∅) (hand : ev.marker .and = .ok ())
    (hor : ev.marker .or = .ok ()) (ha : ev.Accepts members)
    (hev : ∀ behind ∈ [beside, absent], ev.Evaluates (filters (inOr members beside behind)))
    (hw : ev.val beside = .result (some w)) (h0 : ev.val absent = .result none) :
    ((∃ r, evalLoop ev mask (filters (inOr members beside beside)) ⟨.and, none⟩ [] = .ok r ∧
        extract (r.bm.getD ∅) = extract w) ∧
      (∃ r, evalLoop ev mask (filters (inOr members beside absent)) ⟨.and, none⟩ [] = .ok r ∧
        extract (r.bm.getD ∅) = extract ∅)) ↔
      Guarded ev.val mask ⟨.and, none⟩ members := by
  rw [evalLoop_total mask _ _ _ (hev beside (by simp)), evalLoop_total mask _ _ _ (hev absent (by simp)),
    ← map_embTok_id, ← map_embTok_id]
  have hacc := total_accepts ha
  constructor
  · rintro ⟨⟨r, h1, hr⟩, ⟨r', h2, hr'⟩⟩
    by_contra hg
    have h := evalLoop_inOr_of_not_guarded (total_resolves ev) hand hor hacc hg beside beside absent
    rw [h1, h2] at h
    obtain rfl : r = r' := Except.ok.inj h
    exact hne (hr.symm.trans hr')
  · intro hg
    obtain ⟨r, h1, hr⟩ := evalLoop_inOr_of_guarded (total_resolves ev) hw hw hand hor hacc hg
    obtain ⟨r', h2, hr'⟩ := evalLoop_inOr_of_guarded (total_resolves ev) hw h0 hand hor hacc hg
    refine ⟨⟨r, h1, ?_⟩, ⟨r', h2, ?_⟩⟩
    · rw [hr, getD_some, Finset.union_inter_cancel_right]
    · rw [hr', getD_none, Finset.inter_empty]

end

/-! ## One account -/

section

variable (index : UInt32 → Lookups UInt32) (mask : Finset UInt32)

/-- A list `query_account` can be asked: it names an account, and every operator in it evaluates. -/
structure AccountQuery (t : Tree UInt32) : Prop where
  account : accountId t.filters ≠ 0xFFFFFFFF
  evaluates : (accountEvaluator (index (accountId t.filters))).Evaluates t.filters

/-- The bitmap of a leaf of the list. -/
def accountVal (t : Tree UInt32) : LeafFilter UInt32 → Leaf UInt32 :=
  (accountEvaluator (index (accountId t.filters))).val

/-- The documents of the mask that the tree selects. -/
def accountEval (t : Tree UInt32) : Finset UInt32 :=
  mask.filter fun i => selects (accountVal index t) mask i .and t

/-- No `And` below an `Or` or a `Not` becomes empty in front of a nested group of its own, and no
`And` or `Not` is without members (at the top level: unless the account is all the list names). -/
structure AccountGuarded (t : Tree UInt32) : Prop where
  member : 1 < t.filters.length → HasMember (accountVal index t) t
  filled : Filled (accountVal index t) t
  guarded : GuardedTop (accountVal index t) mask ⟨.and, none⟩ t

variable {index mask}

theorem accountEvaluator_accepts (lookups : Lookups UInt32) (t : Tree UInt32) :
    (accountEvaluator lookups).Accepts t := by
  induction t with
  | nil => trivial
  | leaf x rest ih => exact ih
  | group op m rest ihm ih => exact ⟨rfl, ihm, ih⟩

variable {t members : Tree UInt32} {id : UInt32} {w : Finset UInt32}

theorem accountEval_of_length_le_one (hq : AccountQuery index t)
    (hl : ¬ 1 < t.filters.length) : accountEval index mask t = mask := by
  obtain ⟨hid, -⟩ := hq
  refine Finset.filter_true_of_mem fun i _ => ?_
  cases t with
  | nil => rfl
  | group op m rest => simp [filters] at hl
  | leaf x rest =>
    have hrest : rest = .nil := by
      cases rest <;> simp [filters] at hl ⊢
    subst hrest
    have hx : ∃ op id, x = .operator .accountId op (.uint id) := by
      by_contra hx
      refine hid ?_
      unfold accountId
      rw [List.findSome?_eq_none_iff.mpr]
      · rfl
      · intro f hf
        obtain rfl : f = .ofTok (.leaf x) := by simpa [filters] using hf
        split
        · rename_i op id heq
          cases x <;> simp only [SearchFilter.ofTok] at heq
          · simp only [SearchFilter.operator.injEq] at heq
            exact absurd ⟨op, id, by rw [heq.1, heq.2.1, heq.2.2]⟩ hx
          · cases heq
        · rfl
    obtain ⟨op, id, rfl⟩ := hx
    rfl

/-- **`query_account` on a guarded list.** -/
theorem queryAccount_eq (hq : AccountQuery index t) (hg : AccountGuarded index mask t) :
    queryAccount index ⟨t.filters, mask⟩ = .ok (accountEval index mask t) := by
  unfold queryAccount
  rw [if_neg hq.account]
  by_cases hl : 1 < t.filters.length
  · rw [if_pos hl]
    obtain ⟨r, h1, h2⟩ := evalLoop_filters hq.evaluates (accountEvaluator_accepts _ t) hg.guarded
    simp only [h1, bind, Except.bind, pure, Except.pure, h2, Except.ok.injEq]
    ext i
    rw [Finset.inter_comm, accountEval, Finset.mem_inter, Finset.mem_filter]
    refine and_congr_right fun hi => ?_
    obtain ⟨d, h3, h4⟩ := foldsTo hi t hg.filled ⟨.and, none⟩ (hg.member hl)
    rw [accountVal] at h3 h4 ⊢
    rw [h3, getD_some, ← h4, decide_eq_true_iff]
  · rw [if_neg hl, accountEval_of_length_le_one hq hl]

theorem queryAccount_eq_iff (hid : accountId t.filters ≠ 0xFFFFFFFF) (hl : 1 < t.filters.length)
    (s : Finset UInt32) :
    queryAccount index ⟨t.filters, mask⟩ = .ok s ↔
      ∃ r, evalLoop (accountEvaluator (index (accountId t.filters))) mask t.filters ⟨.and, none⟩ [] =
        .ok r ∧ r.bm.getD ∅ ∩ mask = s := by
  unfold queryAccount
  rw [if_neg hid, if_pos hl]
  simp only [bind, Except.bind, pure, Except.pure]
  split
  · rename_i e he
    simp [he]
  · rename_i r hr
    simp [hr]

/-- The operator that names the account. -/
def accountLeaf (id : UInt32) : LeafFilter UInt32 :=
  .operator .accountId .equal (.uint id.toUInt64)

theorem accountId_accountLeaf (id : UInt32) (t : Tree UInt32) :
    accountId (filters (.leaf (accountLeaf id) t)) = id := by
  simp [accountId, filters, accountLeaf, SearchFilter.ofTok]

/-- The members of an `And` inside an `Or`, in a query for an account. -/
def accountInOr (id : UInt32) (members : Tree UInt32) (beside behind : LeafFilter UInt32) :
    Tree UInt32 :=
  .leaf (accountLeaf id) (inOr members beside behind)

theorem accountVal_accountInOr (id : UInt32) (members : Tree UInt32)
    (beside behind : LeafFilter UInt32) :
    accountVal index (accountInOr id members beside behind) = (accountEvaluator (index id)).val := by
  rw [accountVal, accountInOr, accountId_accountLeaf]

theorem accountEval_accountInOr {beside behind : LeafFilter UInt32} {b : Option (Finset UInt32)}
    (hw : (accountEvaluator (index id)).val beside = .result (some w))
    (hb : (accountEvaluator (index id)).val behind = .result b) (hsub : b.getD ∅ ⊆ w) :
    accountEval index mask (accountInOr id members beside behind) = b.getD ∅ ∩ mask := by
  unfold accountEval
  rw [accountVal_accountInOr]
  ext i
  rw [Finset.mem_filter, Finset.inter_comm, Finset.mem_inter]
  refine and_congr_right fun hi => ?_
  have hskip : (accountEvaluator (index id)).val (accountLeaf id) = .skip := rfl
  have hsel : selects (accountEvaluator (index id)).val mask i .and
      (accountInOr id members beside behind) =
        ((selects (accountEvaluator (index id)).val mask i .and members || decide (i ∈ w)) &&
          decide (i ∈ b.getD ∅)) := by
    rw [← selects_inOr hw hb]
    simp [accountInOr, selects, hskip]
  rw [hsel, Bool.and_eq_true, Bool.or_eq_true, decide_eq_true_iff, decide_eq_true_iff]
  exact ⟨fun h => h.2, fun h => ⟨Or.inr (hsub h), h⟩⟩

theorem queryAccount_accountInOr (hid : id ≠ 0xFFFFFFFF) {beside behind : LeafFilter UInt32}
    (s : Finset UInt32) :
    queryAccount index ⟨(accountInOr id members beside behind).filters, mask⟩ = .ok s ↔
      ∃ r, evalLoop (accountEvaluator (index id)) mask (filters (inOr members beside behind))
        ⟨.and, none⟩ [] = .ok r ∧ r.bm.getD ∅ ∩ mask = s := by
  have hacc : accountId (accountInOr id members beside behind).filters = id :=
    accountId_accountLeaf id _
  rw [queryAccount_eq_iff (by rw [hacc]; exact hid) (by simp [filters, accountInOr, inOr]), hacc]
  have hstep : evalLoop (accountEvaluator (index id)) mask
      (accountInOr id members beside behind).filters ⟨.and, none⟩ [] =
        evalLoop (accountEvaluator (index id)) mask (filters (inOr members beside behind))
          ⟨.and, none⟩ [] := by
    show evalLoop _ _ (SearchFilter.operator .accountId .equal _ :: filters _) _ _ = _
    rw [evalLoop]
    · rfl
    all_goals simp
  rw [hstep]

/-- **What the guard means for the groups around an `And`** in `query_account`. -/
theorem queryAccount_inOr_iff (hid : id ≠ 0xFFFFFFFF) {beside absent : LeafFilter UInt32}
    (hev : ∀ behind ∈ [beside, absent],
      (accountEvaluator (index id)).Evaluates (filters (inOr members beside behind)))
    (hw : (accountEvaluator (index id)).val beside = .result (some w)) (hne : (w ∩ mask).Nonempty)
    (h0 : (accountEvaluator (index id)).val absent = .result none) :
    (∀ behind ∈ [beside, absent],
      queryAccount index ⟨(accountInOr id members beside behind).filters, mask⟩ =
        .ok (accountEval index mask (accountInOr id members beside behind))) ↔
      Guarded (accountEvaluator (index id)).val mask ⟨.and, none⟩ members := by
  have hne' : w ∩ mask ≠ ∅ ∩ mask := by
    exact hne.ne_empty
  rw [← evalLoop_inOr_iff (· ∩ mask) hne' rfl rfl (accountEvaluator_accepts _ _) hev hw h0]
  simp only [List.forall_mem_cons, List.not_mem_nil, false_imp_iff, implies_true, and_true,
    queryAccount_accountInOr hid, accountEval_accountInOr hw hw subset_rfl,
    accountEval_accountInOr hw h0 (Finset.empty_subset _), getD_some, getD_none]

end

/-! ## All accounts -/

section

variable (lookups : Lookups UInt64)

/-- Does the tree select the id?  Without `Not` groups the mask of `selects` is never read. -/
def globalSelects (t : Tree UInt64) (i : UInt64) : Bool :=
  selects (globalEvaluator lookups).val ∅ i .and t

/-- A list `query_global` can be asked: no document sets, no `Not`, and every operator evaluates. -/
structure GlobalQuery (t : Tree UInt64) : Prop where
  evaluates : (globalEvaluator lookups).Evaluates t.filters
  accepts : (globalEvaluator lookups).Accepts t

/-- No `And` below an `Or` becomes empty in front of a nested group of its own, and no `And` is
without members. -/
structure GlobalGuarded (t : Tree UInt64) : Prop where
  member : HasMember (globalEvaluator lookups).val t
  filled : Filled (globalEvaluator lookups).val t
  guarded : GuardedTop (globalEvaluator lookups).val ∅ ⟨.and, none⟩ t

variable {lookups}

variable {val : LeafFilter UInt64 → Leaf UInt64} {t : Tree UInt64}

theorem fold_congr_mask (ha : (globalEvaluator lookups).Accepts t) (mask mask' : Finset UInt64) :
    ∀ st : State UInt64, st.op ≠ .not → fold val mask st t = fold val mask' st t := by
  have hadd : ∀ (st : State UInt64) (r : Option (Finset UInt64)), st.op ≠ .not →
      st.add mask r = st.add mask' r := by
    rintro ⟨op, bm⟩ r hop
    cases op
    · cases bm <;> cases r <;> rfl
    · cases bm <;> cases r <;> rfl
    · exact absurd rfl hop
  induction t with
  | nil => intro st _; rfl
  | leaf x rest ih =>
    intro st hop
    cases hx : val x with
    | skip => rw [fold_leaf_skip hx, fold_leaf_skip hx, ih ha st hop]
    | result bm => rw [fold_leaf_result hx, fold_leaf_result hx, hadd st bm hop,
      ih ha (st.add mask' bm) hop]
  | group op m rest ihm ih =>
    intro st hop
    obtain ⟨hmark, ham, har⟩ := ha
    have hnot : op ≠ .not := by
      rintro rfl
      simp [globalEvaluator] at hmark
    rw [fold, fold, ihm ham ⟨op, none⟩ hnot, hadd st _ hop,
      ih har (st.add mask' _) hop]

theorem selects_congr_mask (ha : (globalEvaluator lookups).Accepts t) (mask mask' : Finset UInt64)
    (i : UInt64) :
    ∀ op : LogicalOp, op ≠ .not → selects val mask i op t = selects val mask' i op t := by
  have hmem : ∀ (op : LogicalOp) (b : Bool), op ≠ .not → member mask i op b = member mask' i op b := by
    intro op b hop
    cases op
    · rfl
    · rfl
    · exact absurd rfl hop
  induction t with
  | nil => intro op _; rfl
  | leaf x rest ih =>
    intro op hop
    simp [selects, ih ha op hop, hmem op _ hop]
  | group op' m rest ihm ih =>
    intro op hop
    obtain ⟨hmark, ham, har⟩ := ha
    have hnot : op' ≠ .not := by
      rintro rfl
      simp [globalEvaluator] at hmark
    simp [selects, ih har op hop, ihm ham op' hnot, hmem op _ hop]

/-- **`query_global` on a guarded list.** -/
theorem queryGlobal_eq (hq : GlobalQuery lookups t) (hg : GlobalGuarded lookups t) :
    ∃ s, queryGlobal lookups t.filters = .ok s ∧ ∀ i, i ∈ s ↔ globalSelects lookups t i := by
  obtain ⟨r, h1, h2⟩ := evalLoop_filters hq.evaluates hq.accepts hg.guarded
  refine ⟨r.bm.getD ∅, ?_, fun i => ?_⟩
  · simp [queryGlobal, h1, bind, Except.bind, pure, Except.pure]
  · -- at document `i` any mask with `i` will do
    obtain ⟨d, h3, h4⟩ := foldsTo (Finset.mem_singleton_self i) t hg.filled ⟨.and, none⟩ hg.member
    rw [fold_congr_mask hq.accepts {i} ∅ _ (by simp)] at h3
    rw [globalSelects, selects_congr_mask hq.accepts ∅ {i} i .and (by simp), ← h4, h2, h3,
      getD_some, decide_eq_true_iff]

/-- **What the guard means for the groups around an `And`** in `query_global`. -/
theorem queryGlobal_inOr_iff {members : Tree UInt64} {beside absent : LeafFilter UInt64}
    {w : Finset UInt64} (ha : (globalEvaluator lookups).Accepts members)
    (hev : ∀ behind ∈ [beside, absent],
      (globalEvaluator lookups).Evaluates (filters (inOr members beside behind)))
    (hw : (globalEvaluator lookups).val beside = .result (some w)) (hne : w.Nonempty)
    (h0 : (globalEvaluator lookups).val absent = .result none) :
    (∀ behind ∈ [beside, absent],
      ∃ s, queryGlobal lookups (filters (inOr members beside behind)) = .ok s ∧
        ∀ i, i ∈ s ↔ globalSelects lookups (inOr members beside behind) i) ↔
      Guarded (globalEvaluator lookups).val ∅ ⟨.and, none⟩ members := by
  have hsel : ∀ (behind : LeafFilter UInt64) (b : Option (Finset UInt64)) (s : Finset UInt64),
      (globalEvaluator lookups).val behind = .result b → b.getD ∅ ⊆ w →
      ((∀ i, i ∈ s ↔ globalSelects lookups (inOr members beside behind) i) ↔ s = b.getD ∅) := by
    intro behind b s hb hsub
    rw [Finset.ext_iff]
    refine forall_congr' fun i => iff_congr Iff.rfl ?_
    rw [globalSelects, selects_inOr hw hb, Bool.and_eq_true, Bool.or_eq_true, decide_eq_true_iff, decide_eq_true_iff]
    exact ⟨fun h => h.2, fun h => ⟨Or.inr (hsub h), h⟩⟩
  have hrun : ∀ (filters : List (SearchFilter UInt64)) (s : Finset UInt64),
      queryGlobal lookups filters = .ok s ↔
        ∃ r, evalLoop (globalEvaluator lookups) ∅ filters ⟨.and, none⟩ [] = .ok r ∧
          r.bm.getD ∅ = s := by
    intro filters s
    simp only [queryGlobal, bind, Except.bind, pure, Except.pure]
    split
    · rename_i e he
      simp [he]
    · rename_i r hr
      simp [hr]
  rw [← evalLoop_inOr_iff id hne.ne_empty rfl rfl ha hev hw h0]
  simp only [List.forall_mem_cons, List.not_mem_nil, false_imp_iff, implies_true, and_true, hrun,
    hsel beside (some w) _ hw subset_rfl, hsel absent none _ h0 (Finset.empty_subset _),
    getD_some, getD_none, id_eq, exists_eq_right]

end

/-- **When the loops compute the meaning of the list.**  They do on every list in which no `And` below
an `Or` or a `Not` becomes empty in front of a nested group of its own (and none is without members).
And that is what matters: the members of an `And` leave the groups around it alone exactly when they
are guarded in this way. -/
theorem query_eq_eval (index : UInt32 → Lookups UInt32) (mask : Finset UInt32)
    (lookups : Lookups UInt64) :
    (∀ t : Tree UInt32, AccountQuery index t → AccountGuarded index mask t →
      queryAccount index ⟨t.filters, mask⟩ = .ok (accountEval index mask t)) ∧
    (∀ t : Tree UInt64, GlobalQuery lookups t → GlobalGuarded lookups t →
      ∃ s, queryGlobal lookups t.filters = .ok s ∧ ∀ i, i ∈ s ↔ globalSelects lookups t i) ∧
    (∀ (id : UInt32) (members : Tree UInt32) (beside absent : LeafFilter UInt32) (w : Finset UInt32),
      id ≠ 0xFFFFFFFF →
      (∀ behind ∈ [beside, absent],
        (accountEvaluator (index id)).Evaluates (filters (inOr members beside behind))) →
      (accountEvaluator (index id)).val beside = .result (some w) → (w ∩ mask).Nonempty →
      (accountEvaluator (index id)).val absent = .result none →
      ((∀ behind ∈ [beside, absent],
        queryAccount index ⟨(accountInOr id members beside behind).filters, mask⟩ =
          .ok (accountEval index mask (accountInOr id members beside behind))) ↔
        Guarded (accountEvaluator (index id)).val mask ⟨.and, none⟩ members)) ∧
    (∀ (members : Tree UInt64) (beside absent : LeafFilter UInt64) (w : Finset UInt64),
      (globalEvaluator lookups).Accepts members →
      (∀ behind ∈ [beside, absent],
        (globalEvaluator lookups).Evaluates (filters (inOr members beside behind))) →
      (globalEvaluator lookups).val beside = .result (some w) → w.Nonempty →
      (globalEvaluator lookups).val absent = .result none →
      ((∀ behind ∈ [beside, absent],
        ∃ s, queryGlobal lookups (filters (inOr members beside behind)) = .ok s ∧
          ∀ i, i ∈ s ↔ globalSelects lookups (inOr members beside behind) i) ↔
        Guarded (globalEvaluator lookups).val ∅ ⟨.and, none⟩ members)) :=
  ⟨fun _ => queryAccount_eq, fun _ => queryGlobal_eq,
    fun _ _ _ _ _ hid hev hw hne h0 => queryAccount_inOr_iff hid hev hw hne h0,
    fun _ _ _ _ ha hev hw hne h0 => queryGlobal_inOr_iff ha hev hw hne h0⟩

/-! Two small indexes, for a query that is guarded and one that is not. -/

section

variable {ι : Type}

/-- An index that answers by field only. -/
def byField (answer : SearchField → Option (Finset ι)) : Lookups ι where
  mergeBitmaps _ field _ := .ok (answer field)
  rangeToBitmap field _ _ := .ok (answer field)
  tokenizeText _ _ := []
  stemmer _ _ := []
  spaceTokenizer _ := []

/-- Document 1 has a subject and document 2 a body. -/
def twoMessages (_ : UInt32) : Lookups UInt32 :=
  byField fun
    | .email .subject => some {1}
    | .email .body => some {2}
    | _ => none

/-- Event 1 has keywords and event 2 a queue id. -/
def twoEvents : Lookups UInt64 :=
  byField fun
    | .tracing .keywords => some {1}
    | .tracing .queueId => some {2}
    | _ => none

def word (field : SearchField) : LeafFilter ι := .operator field .equal (.text "" .none)

/-- `x, Or [y]`, the members of an `And`. -/
def nestedOr (x y : SearchField) : Tree ι :=
  .leaf (word x) (.group .or (.leaf (word y) .nil) .nil)

/-- `Or [And members, x]`. -/
def orAnd (members : Tree ι) (x : SearchField) : Tree ι :=
  .group .or (.group .and members (.leaf (word x) .nil)) .nil

end

theorem query_eq_eval_at :
    queryAccount twoMessages ⟨filters (.leaf (accountLeaf 7)
      (orAnd (nestedOr (.email .subject) (.email .cc)) (.email .body))), {1, 2}⟩ = .ok {2} ∧
    (∃ s, queryGlobal twoEvents
      (filters (orAnd (nestedOr (.tracing .keywords) (.tracing .eventType)) (.tracing .queueId))) =
        .ok s ∧ 2 ∈ s) ∧
    (¬ ∀ behind ∈ [word (.email .body), word (.email .cc)],
      queryAccount twoMessages ⟨(accountInOr 7 (nestedOr (.email .cc) (.email .subject))
        (word (.email .body)) behind).filters, {1, 2}⟩ =
          .ok (accountEval twoMessages {1, 2} (accountInOr 7 (nestedOr (.email .cc) (.email .subject))
            (word (.email .body)) behind))) ∧
    ¬ ∀ behind ∈ [word (.tracing .queueId), word (.tracing .eventType)],
      ∃ s, queryGlobal twoEvents (filters (inOr
          (nestedOr (.tracing .eventType) (.tracing .keywords)) (word (.tracing .queueId)) behind)) =
        .ok s ∧ ∀ i, i ∈ s ↔ globalSelects twoEvents (inOr
          (nestedOr (.tracing .eventType) (.tracing .keywords)) (word (.tracing .queueId)) behind) i := by
  obtain ⟨haccount, hglobal, haccountOr, hglobalOr⟩ := query_eq_eval twoMessages {1, 2} twoEvents
  refine ⟨?_, ?_, fun h => ?_, fun h => ?_⟩
  · rw [haccount _ ⟨by decide, by decide⟩ ⟨by decide, by decide, by decide⟩]
    exact congrArg _ (by decide)
  · obtain ⟨s, h, hs⟩ := hglobal (orAnd (nestedOr (.tracing .keywords) (.tracing .eventType))
      (.tracing .queueId)) ⟨by decide, ⟨rfl, ⟨rfl, ⟨rfl, trivial, trivial⟩, trivial⟩, trivial⟩⟩
      ⟨by decide, by decide, by decide⟩
    exact ⟨s, h, (hs 2).mpr (by decide)⟩
  · exact absurd ((haccountOr 7 _ _ _ {2} (by decide) (by decide) rfl (by decide) rfl).mp h)
      (by decide)
  · have haccepts : (globalEvaluator twoEvents).Accepts
        (nestedOr (.tracing .eventType) (.tracing .keywords) : Tree UInt64) := by
      refine ⟨rfl, ?_, ?_⟩ <;> trivial
    exact absurd ((hglobalOr _ _ _ {2} haccepts (by decide) rfl (by decide) rfl).mp h)
      (by decide)

/-- `Or [And [cc, Or [subject]], body]` selects document 2, and the same in the trace; the queries
find nothing. -/
theorem query_loses_member :
    let t := .leaf (accountLeaf 7) (orAnd (nestedOr (.email .cc) (.email .subject)) (.email .body))
    let u := orAnd (nestedOr (.tracing .eventType) (.tracing .keywords)) (.tracing .queueId)
    (queryAccount twoMessages ⟨filters t, {1, 2}⟩ = .ok ∅ ∧
      accountEval twoMessages {1, 2} t = {2}) ∧
    queryGlobal twoEvents (filters u) = .ok ∅ ∧ globalSelects twoEvents u 2 := by
  refine ⟨⟨?_, by decide⟩, ⟨?_, by decide⟩⟩
  · simp [queryAccount, orAnd, nestedOr, filters, SearchFilter.ofTok, accountLeaf, accountId,
      evalLoop, word, accountEvaluator, accountOperator, twoMessages, byField, SearchField.isText,
      Except.map, State.add, applyResult, advance, State.Exits, skipToEnd, bind, Except.bind, pure,
      Except.pure]
  · simp [queryGlobal, orAnd, nestedOr, filters, SearchFilter.ofTok, evalLoop, word,
      globalEvaluator, globalOperator, twoEvents, byField, sortKey, SearchField.isIndexed, Except.map, State.add, applyResult, advance, State.Exits, skipToEnd, bind,
      Except.bind, pure, Except.pure]

end MailServer.Store.Search
