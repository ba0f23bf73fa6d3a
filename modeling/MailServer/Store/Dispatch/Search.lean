import MailServer.Store.Search.Split

/-!
# Answering a split query (`store/src/dispatch/search.rs`)

`SearchStore::query_account` sends the external pieces of a query to the search store, puts the
documents it answers with back as document sets, and evaluates what remains locally.  The search store
is an oracle that knows the documents of each operator; how the local evaluation reads the list is the
subject of `Search.Local`, here the list stands for its meaning.

* `selects_gather`: the first loop of `split_filters` keeps the meaning unless a `Not` has two document
  sets (it intersects them).
* `selects_piecesTree`: so do the pieces, except for a piece of two or more members that stands in a
  `Not` (it is answered as a conjunction) or in an `Or` behind a group that stayed (no `Or` is put
  around it).
* `querySplit_eq_evalList`: both for the query as a whole.
-/

namespace MailServer.Store.Search

open MailServer.Lib MailServer.Trc Content

variable {ι : Type} [DecidableEq ι]

section

variable (oracle : SearchField → SearchOperator → SearchValue → Finset ι) (mask : Finset ι)

/-- The documents of a filter; the operator that names the account is no condition. -/
def externalVal : LeafFilter ι → Leaf ι
  | .operator field op value =>
    match accountOf (.operator field op value : LeafFilter ι) with
    | some _ => .skip
    | none => .result (some (oracle field op value))
  | .documentSet docs => .result (some docs)

/-- The documents of the mask that a filter list selects. -/
def evalList (filters : List (SearchFilter ι)) : Finset ι :=
  match parse (filters.map SearchFilter.tok) with
  | some t => mask.filter fun i => selects (externalVal oracle) mask i .and t
  | none => ∅

/-- `for split_filter in split_filters`: `sub_query` answers an external piece. -/
def resolve : SplitFilter ι → SearchFilter ι
  | .internal filter => filter
  | .external external => .documentSet (evalList oracle mask external)

/-- The local part of `SearchStore::query_account`: split the filters, answer the external pieces and
evaluate the list. -/
def querySplit (filters : List (SearchFilter ι)) : Except Error (Finset ι) :=
  match splitFilters filters with
  | none => .error ⟨.unexpectedError, "Invalid filter query"⟩
  | some pieces => .ok (evalList oracle mask (pieces.map (resolve oracle mask)))

variable {oracle mask}

omit [DecidableEq ι] in
@[simp] theorem externalVal_documentSet (docs : Finset ι) :
    externalVal oracle (.documentSet docs) = .result (some docs) := rfl

theorem evalList_filters (t : Tree ι) :
    evalList oracle mask t.filters =
      mask.filter fun i => selects (externalVal oracle) mask i .and t := by
  rw [evalList, Tree.filters, SearchFilter.map_tok_map_ofTok, parse_tokens]

theorem mem_evalList {i : ι} (hi : i ∈ mask) (t : Tree ι) :
    decide (i ∈ evalList oracle mask t.filters) = selects (externalVal oracle) mask i .and t := by
  rw [evalList_filters]
  simp [hi]

end

/-! ## The gathered list -/

/-- The document sets directly in a group. -/
def docCount : Tree ι → ℕ
  | .nil => 0
  | .leaf (.documentSet _) rest => docCount rest + 1
  | .leaf (.operator _ _ _) rest => docCount rest
  | .group _ _ rest => docCount rest

/-- No `Not` group has two document sets. -/
def SingleNot : Tree ι → Prop
  | .nil => True
  | .leaf _ rest => SingleNot rest
  | .group op members rest =>
    (op = .not → docCount members ≤ 1) ∧ SingleNot members ∧ SingleNot rest

instance decidableSingleNot : (t : Tree ι) → Decidable (SingleNot t)
  | .nil => isTrue trivial
  | .leaf _ rest => decidableSingleNot rest
  | .group op members rest =>
    have := decidableSingleNot members
    have := decidableSingleNot rest
    inferInstanceAs (Decidable ((op = .not → docCount members ≤ 1) ∧ SingleNot members ∧
      SingleNot rest))

section

variable {oracle : SearchField → SearchOperator → SearchValue → Finset ι} {mask : Finset ι} {i : ι}

theorem selects_mergeDocs (op : Option LogicalOp) (d : Finset ι) (docs : Option (Finset ι))
    (h : op = some .not → docs = none) :
    selects (externalVal oracle) mask i (op.getD .and) (docsTree (some (mergeDocs op d docs))) =
      join (op.getD .and) (selects (externalVal oracle) mask i (op.getD .and)
        (.leaf (.documentSet d) .nil))
        (selects (externalVal oracle) mask i (op.getD .and) (docsTree docs)) := by
  cases docs with
  | none => simp [mergeDocs, docsTree]
  | some e =>
    rcases op with _ | (_ | _ | _)
    · simp [mergeDocs, docsTree, selects, member, join, Bool.and_comm]
    · simp [mergeDocs, docsTree, selects, member, join, Bool.and_comm]
    · simp [mergeDocs, docsTree, selects, member, join, Bool.or_comm]
    · exact absurd (h rfl) (by simp)

theorem selects_foldr_leaf (op : LogicalOp) (xs : List (LeafFilter ι)) (t : Tree ι) :
    selects (externalVal oracle) mask i op (xs.foldr .leaf t) =
      join op (selects (externalVal oracle) mask i op (xs.foldr .leaf .nil))
        (selects (externalVal oracle) mask i op t) := by
  rw [← foldr_leaf_append, selects_append]

/-- **The first loop keeps the meaning** of every list without two document sets in a `Not`. -/
theorem selects_gather (t : Tree ι) (ht : SingleNot t) : ∀ (op : Option LogicalOp)
    (operators : List (LeafFilter ι)) (docs : Option (Finset ι)),
    (op = some .not → docCount t = 0 ∨ docCount t ≤ 1 ∧ docs = none) →
    selects (externalVal oracle) mask i (op.getD .and) (gather op operators docs t).tree =
      join (op.getD .and) (selects (externalVal oracle) mask i (op.getD .and) t)
        (selects (externalVal oracle) mask i (op.getD .and) (leaves operators docs).tree) := by
  induction t with
  | nil => intro op operators docs _; simp [gather]
  | leaf x rest ih =>
    intro op operators docs h
    rw [selects_leaf]
    cases x with
    | documentSet d =>
      have hdocs : op = some .not → docs = none := by
        intro hop
        rcases h hop with h | h
        · simp [docCount] at h
        · exact h.2
      have hrest : op = some .not → docCount rest = 0 ∨
          docCount rest ≤ 1 ∧ some (mergeDocs op d docs) = none := by
        intro hop
        rcases h hop with h | h
        · simp [docCount] at h
        · simp only [docCount] at h
          exact Or.inl (by omega)
      show selects _ _ _ _ (gather op operators (some (mergeDocs op d docs)) rest).tree = _
      rw [ih ht op operators _ hrest]
      simp only [tree]
      rw [selects_foldr_leaf, selects_foldr_leaf _ _ (docsTree docs), selects_mergeDocs op d docs hdocs]
      ac_rfl
    | operator field o value =>
      cases hx : accountOf (.operator field o value : LeafFilter ι) with
      | some account =>
        simp only [gather, hx]
        rw [ih ht op operators docs h]
        simp [selects, externalVal, hx]
      | none =>
        simp only [gather, hx]
        rw [ih ht op _ docs h]
        simp only [tree, List.foldr_append]
        rw [selects_foldr_leaf, selects_foldr_leaf _ operators (docsTree docs)]
        show join _ _ (join _ _ (selects _ _ _ _ (.leaf _ (docsTree docs)))) = _
        rw [selects_leaf _ _ (docsTree docs)]
        ac_rfl
  | group g m rest ihm ih =>
    intro op operators docs h
    obtain ⟨hg, hm, hrest⟩ := ht
    have hmem := ihm hm (some g) [] none fun hgn => Or.inr ⟨hg (Option.some.inj hgn), rfl⟩
    simp only [Option.getD_some] at hmem
    show selects _ _ _ _ (.group g (gather (some g) [] none m).tree (gather op operators docs rest).tree) = _
    rw [selects, selects, hmem, ih hrest op operators docs h, join_assoc]
    simp [tree, docsTree]

end

/-! ## The pieces -/

section

variable (oracle : SearchField → SearchOperator → SearchValue → Finset ι) (mask : Finset ι)

/-- The last pieces of a group, after the external one is answered. -/
def lastPiecesTree (id : UInt64) (last : Option (SplitFilter ι)) (c : Content ι) : Tree ι :=
  Nested.append (if c.chunk.filters = [] then .nil
    else .leaf (.documentSet (evalList oracle mask (externalFilters id
      (last = some (.internal .or) ∧ 1 < c.chunk.filters.length) c.chunk.filters))) .nil)
    (docsTree c.docs)

/-- The pieces of a group, after the external ones are answered. -/
def piecesTree (id : UInt64) (last : Option (SplitFilter ι)) : Content ι → Tree ι
  | .leaves ops docs => lastPiecesTree oracle mask id last (.leaves ops docs)
  | .group op members rest =>
    if (group op members rest).groupsDirty then
      .group op (piecesTree id (some (.internal (.ofTok (.opening op)))) members)
        (piecesTree id (some (.internal .«end»)) rest)
    else lastPiecesTree oracle mask id last (.group op members rest)

variable {oracle mask}

theorem map_resolve_lastPieces (id : UInt64) (last : Option (SplitFilter ι)) (c : Content ι) :
    (c.lastPieces id last).map (resolve oracle mask) =
      (lastPiecesTree oracle mask id last c).filters := by
  have hdocs : ((c.docs.map fun d => SplitFilter.internal (.documentSet d)).toList).map
      (resolve oracle mask) = Tree.filters (docsTree c.docs) := by
    cases c.docs <;> rfl
  rw [lastPieces, lastPiecesTree, List.map_append, hdocs]
  split <;> rfl

theorem map_resolve_pieces (id : UInt64) (c : Content ι) : ∀ last : Option (SplitFilter ι),
    (c.pieces id last).map (resolve oracle mask) = (piecesTree oracle mask id last c).filters := by
  induction c with
  | leaves ops docs => exact fun last => map_resolve_lastPieces id last _
  | group op m rest ihm ih =>
    intro last
    rw [pieces, piecesTree]
    split
    · simp [ihm, ih, resolve]
    · exact map_resolve_lastPieces id last _

end

/-! ## When the pieces keep the meaning -/

/-- The number of members of a group. -/
def memberCount : Tree ι → ℕ
  | .nil => 0
  | .leaf _ rest => memberCount rest + 1
  | .group _ _ rest => memberCount rest + 1

/-- The operators and groups sent together may be answered as one: there is at most one, or they stand
in an `And`, or in an `Or` of which no group stayed. -/
def ChunkSafe (op : LogicalOp) (first : Bool) (c : Content ι) : Prop :=
  memberCount c.chunk ≤ 1 ∨ op = .and ∨ op = .or ∧ first = true

instance (op : LogicalOp) (first : Bool) (c : Content ι) : Decidable (ChunkSafe op first c) :=
  inferInstanceAs (Decidable (_ ∨ _))

/-- Every external piece of a group is such.  `first` says that no nested group has stayed so far. -/
def SplitSafe (op : LogicalOp) (first : Bool) : Content ι → Prop
  | .leaves ops docs => ChunkSafe op first (.leaves ops docs)
  | .group g members rest =>
    if (group g members rest).groupsDirty then
      SplitSafe g true members ∧ SplitSafe op false rest
    else ChunkSafe op first (.group g members rest)

instance decidableSplitSafe : (op : LogicalOp) → (first : Bool) → (c : Content ι) →
    Decidable (SplitSafe op first c)
  | op, first, .leaves ops docs => inferInstanceAs (Decidable (ChunkSafe op first (.leaves ops docs)))
  | op, first, .group g members rest =>
    have := decidableSplitSafe g true members
    have := decidableSplitSafe op false rest
    inferInstanceAs (Decidable (if (group g members rest).groupsDirty then
      SplitSafe g true members ∧ SplitSafe op false rest
      else ChunkSafe op first (.group g members rest)))

section

variable {oracle : SearchField → SearchOperator → SearchValue → Finset ι} {mask : Finset ι} {i : ι}

omit [DecidableEq ι] in
theorem memberCount_le (t : Tree ι) : memberCount t ≤ t.filters.length := by
  induction t with
  | nil => exact Nat.zero_le _
  | leaf x rest ih =>
    simp only [memberCount, filters_leaf, List.length_cons]
    omega
  | group op m rest _ ih =>
    simp only [memberCount, filters_group, List.length_cons, List.length_append]
    omega

omit [DecidableEq ι] in
theorem eq_nil_of_memberCount {t : Tree ι} (h : memberCount t ≤ 0) : t = .nil := by
  cases t with
  | nil => rfl
  | leaf x rest => simp [memberCount] at h
  | group op m rest => simp [memberCount] at h

theorem selects_single (oracle : SearchField → SearchOperator → SearchValue → Finset ι)
    (mask : Finset ι) (i : ι) {c : Content ι} (hp : c.Plain) (hne : c.chunk.filters ≠ [])
    (h : memberCount c.chunk ≤ 1) : ∃ b, ∀ op,
      selects (externalVal oracle) mask i op c.chunk = member mask i op b := by
  cases c with
  | leaves ops docs =>
    cases ops with
    | nil => exact absurd rfl hne
    | cons x ops =>
      have hrest : chunk (.leaves ops docs) = .nil :=
        eq_nil_of_memberCount (by simpa [chunk, memberCount] using h)
      obtain ⟨hx, hd⟩ := hp x List.mem_cons_self
      cases x with
      | documentSet d => exact absurd rfl (hd d)
      | operator field o value =>
        refine ⟨decide (i ∈ oracle field o value), fun op => ?_⟩
        show selects _ _ _ _ (.leaf _ (chunk (.leaves ops docs))) = _
        rw [hrest]
        simp [selects, externalVal, hx]
  | group g m rest =>
    have hrest : rest.chunk = .nil :=
      eq_nil_of_memberCount (by simpa [chunk, memberCount] using h)
    refine ⟨selects (externalVal oracle) mask i g m.tree, fun op => ?_⟩
    rw [chunk, hrest, selects, selects_nil, join_nil]

theorem mem_externalFilters (hi : i ∈ mask) (id : UInt64) (add_or : Bool) (t : Tree ι) :
    decide (i ∈ evalList oracle mask (externalFilters id add_or t.filters)) =
      selects (externalVal oracle) mask i (if add_or then .or else .and) t := by
  have hskip : externalVal oracle (splitAccount id : LeafFilter ι) = .skip := rfl
  cases add_or with
  | false =>
    have hl : externalFilters id false t.filters = Tree.filters (.leaf (splitAccount id) t) := rfl
    rw [hl, mem_evalList hi]
    simp [selects, hskip]
  | true =>
    have hl : externalFilters id true t.filters =
        Tree.filters (.leaf (splitAccount id) (.group .or t .nil)) := by
      simp [externalFilters, SearchFilter.ofTok]
    rw [hl, mem_evalList hi]
    simp [selects, hskip, join, member]

theorem selects_lastPiecesTree (hi : i ∈ mask) (id : UInt64) {c : Content ι} (hp : c.Plain)
    {op : LogicalOp} {first : Bool} {last : Option (SplitFilter ι)}
    (hlast : last = some (.internal .or) ↔ op = .or ∧ first = true) (hs : ChunkSafe op first c) :
    selects (externalVal oracle) mask i op (lastPiecesTree oracle mask id last c) =
      selects (externalVal oracle) mask i op c.tree := by
  rw [lastPiecesTree, tree_eq, selects_append, selects_append]
  by_cases hne : c.chunk.filters = []
  · have hnil : c.chunk = .nil :=
      eq_nil_of_memberCount (by simpa [hne] using memberCount_le c.chunk)
    rw [if_pos hne, hnil]
  · rw [if_neg hne, selects_leaf_result (externalVal_documentSet _), selects_nil, join_nil,
      Option.getD_some,
      mem_externalFilters hi]
    by_cases hone : memberCount c.chunk ≤ 1
    · obtain ⟨b, hb⟩ := selects_single oracle mask i hp hne hone
      rw [hb, hb]
      split <;> rfl
    · -- several members: an `And`, or an `Or` right behind its opening
      have hlen : 1 < c.chunk.filters.length := by
        have := memberCount_le c.chunk
        omega
      rcases hs.resolve_left hone with rfl | ⟨rfl, rfl⟩
      · have hor : ¬ last = some (.internal .or) := by simp [hlast]
        simp [hor, member]
      · have hor : last = some (.internal .or) := hlast.mpr ⟨rfl, rfl⟩
        simp [hor, hlen, member]

/-- **The pieces keep the meaning** of a gathered group whose external pieces are safe. -/
theorem selects_piecesTree (hi : i ∈ mask) (id : UInt64) (c : Content ι) (hp : c.Plain) :
    ∀ (op : LogicalOp) (first : Bool) (last : Option (SplitFilter ι)),
      (last = some (.internal .or) ↔ op = .or ∧ first = true) → SplitSafe op first c →
      selects (externalVal oracle) mask i op (piecesTree oracle mask id last c) =
        selects (externalVal oracle) mask i op c.tree := by
  induction c with
  | leaves ops docs =>
    intro op first last hlast hs
    exact selects_lastPiecesTree hi id hp hlast hs
  | group g m rest ihm ih =>
    intro op first last hlast hs
    rw [SplitSafe] at hs
    rw [piecesTree]
    split
    · rename_i hdirty
      rw [if_pos hdirty] at hs
      have hopen : some (SplitFilter.internal (.ofTok (.opening g) : SearchFilter ι)) =
          some (.internal .or) ↔ g = .or ∧ true = true := by
        cases g <;> simp [SearchFilter.ofTok]
      rw [selects, ihm hp.1 g true _ hopen hs.1, ih hp.2 op false _ (by simp) hs.2]
      rfl
    · rename_i hdirty
      rw [if_neg hdirty] at hs
      exact selects_lastPiecesTree hi id hp hlast hs

end

/-- A list that `split_filters` takes apart without changing its meaning: no `Not` group has two
document sets, and no piece of two or more members stands in a `Not` group, or in an `Or` group behind
a nested group that stayed. -/
def Separable (t : Tree ι) : Prop := SingleNot t ∧ SplitSafe .and true (gather none [] none t)

instance (t : Tree ι) : Decidable (Separable t) := inferInstanceAs (Decidable (_ ∧ _))

theorem querySplit_eq (oracle : SearchField → SearchOperator → SearchValue → Finset ι)
    (mask : Finset ι) {t : Tree ι}
    (haccount : lastAccount 0xFFFFFFFFFFFFFFFF t ≠ 0xFFFFFFFFFFFFFFFF) :
    querySplit oracle mask t.filters = .ok (mask.filter fun i =>
      selects (externalVal oracle) mask i .and (piecesTree oracle mask
        (lastAccount 0xFFFFFFFFFFFFFFFF t) none (gather none [] none t))) := by
  rw [querySplit, splitFilters_pieces, if_neg haccount, ← evalList_filters, ← map_resolve_pieces]

/-- **Splitting a query, answering its external pieces and evaluating the rest** selects what the query
selects, for every separable list that names an account. -/
theorem querySplit_eq_evalList (oracle : SearchField → SearchOperator → SearchValue → Finset ι)
    (mask : Finset ι) (t : Tree ι)
    (haccount : lastAccount 0xFFFFFFFFFFFFFFFF t ≠ 0xFFFFFFFFFFFFFFFF) (ht : Separable t) :
    querySplit oracle mask t.filters = .ok (evalList oracle mask t.filters) := by
  have hplain : (gather none [] none t).Plain := gather_plain t none [] none (by simp)
  rw [querySplit_eq oracle mask haccount, evalList_filters]
  refine congrArg _ (Finset.filter_congr fun i hi => ?_)
  have hgather : selects (externalVal oracle) mask i .and (gather none [] none t).tree =
      join .and (selects (externalVal oracle) mask i .and t) (LogicalOp.and != .or) :=
    selects_gather t ht.1 none [] none (by simp)
  rw [selects_piecesTree hi _ _ hplain .and true none (by simp) ht.2, hgather, join_nil]

/-! Two subject conditions, which documents 1 and 2 meet, and one on the body, which document 2
meets. -/

/-- The documents that meet a condition. -/
def twoSubjects (field : SearchField) (_ : SearchOperator) (value : SearchValue) : Finset UInt32 :=
  match field, value with
  | .email .subject, .boolean b => if b then {1} else {2}
  | .email .body, _ => {2}
  | _, _ => ∅

def subject (b : Bool) : LeafFilter UInt32 := .operator (.email .subject) .contains (.boolean b)

/-- `Or [a, b, {3}]`. -/
theorem querySplit_eq_evalList_at :
    querySplit twoSubjects {1, 2, 3, 4} (Tree.filters (.leaf (splitAccount 7) (.group .or
      (.leaf (subject true) (.leaf (subject false) (.leaf (.documentSet {3}) .nil))) .nil))) =
        .ok {1, 2, 3} := by
  rw [querySplit_eq_evalList _ _ _ (by decide) (by decide)]
  decide

/-- `Not [a, b, {}]` selects documents 3 and 4: the piece `a, b` is answered as a conjunction, which no
document meets.  `Not [{1}, {2}]` does as well: the two sets are intersected.  And `Or [And [{}], a, b]`
selects documents 1 and 2: the piece behind the `And` is answered as a conjunction. -/
theorem querySplit_not_evalList :
    let mask : Finset UInt32 := {1, 2, 3, 4}
    let run t := querySplit twoSubjects mask (Tree.filters (.leaf (splitAccount 7) t))
    let eval t := evalList twoSubjects mask (Tree.filters (.leaf (splitAccount 7) t))
    let t := .group .not (.leaf (subject true) (.leaf (subject false) (.leaf (.documentSet ∅) .nil))) .nil
    let u := .group .not (.leaf (.documentSet {1}) (.leaf (.documentSet {2}) .nil)) .nil
    let v := .group .or (.group .and (.leaf (.documentSet ∅) .nil)
      (.leaf (subject true) (.leaf (subject false) .nil))) .nil
    (run t = .ok {1, 2, 3, 4} ∧ eval t = {3, 4}) ∧ (run u = .ok {1, 2, 3, 4} ∧ eval u = {3, 4}) ∧
      run v = .ok ∅ ∧ eval v = {1, 2} := by
  intro mask run eval t u v
  have hrun : ∀ t, lastAccount 0xFFFFFFFFFFFFFFFF (.leaf (splitAccount 7) t) ≠ 0xFFFFFFFFFFFFFFFF →
      run t = .ok _ := fun t h => querySplit_eq twoSubjects mask h
  have heval : ∀ t, eval t = _ := fun t => evalList_filters _
  refine ⟨⟨(hrun t (by decide)).trans (congrArg _ (by decide)), (heval t).trans (by decide)⟩,
    ⟨(hrun u (by decide)).trans (congrArg _ (by decide)), (heval u).trans (by decide)⟩,
    (hrun v (by decide)).trans (congrArg _ (by decide)), (heval v).trans (by decide)⟩

end MailServer.Store.Search
