import MailServer.Store.Search.Filter

/-!
# Splitting a query between two backends (`store/src/search/split.rs`)

`split_filters` regroups a filter list so that runs of operators go to an external index as a whole
(`External`) while document sets and the groups around them stay behind (`Internal`).

* `splitStep`, `flush`: the first loop, which gathers the operators and the document sets of a group at
  its `End`.
* `scan`, `splitLoop`: the second loop, which cuts the gathered list into pieces.
* `Content`: what the first loop makes of a group: its nested groups, then its operators, then at most
  one document set.
-/

namespace MailServer.Store.Search

open MailServer.Lib List Function SearchFilter

variable {ι : Type} [DecidableEq ι]

inductive SplitFilter (ι : Type) where
  | internal (filter : SearchFilter ι)
  | external (filters : List (SearchFilter ι))
  deriving DecidableEq

/-! ## The first loop -/

/-- The locals of the first loop.  The maps are keyed by depth; an absent entry of `operators` is
empty. -/
structure Gather (ι : Type) where
  accountId : UInt64
  filters : List (SearchFilter ι)
  opStack : List LogicalOp
  documentSets : ℕ → Option (Finset ι)
  operators : ℕ → List (SearchFilter ι)

open Gather

def Gather.new : Gather ι where
  accountId := 0xFFFFFFFFFFFFFFFF
  filters := []
  opStack := []
  documentSets _ := none
  operators _ := []

/-- The operators and the document set gathered at the current depth, at the end of the list. -/
def Gather.flush (s : Gather ι) : Gather ι :=
  { s with
    filters := s.filters ++ s.operators s.opStack.length ++
      ((s.documentSets s.opStack.length).map .documentSet).toList
    documentSets := update s.documentSets s.opStack.length none
    operators := update s.operators s.opStack.length [] }

/-- How a document set joins those of the group before it. -/
def mergeDocs (op : Option LogicalOp) (docs : Finset ι) : Option (Finset ι) → Finset ι
  | some entry => if op = some .or then entry ∪ docs else entry ∩ docs
  | none => docs

def Gather.push (s : Gather ι) (op : LogicalOp) : Gather ι :=
  { s with opStack := op :: s.opStack, filters := s.filters ++ [.ofTok (.opening op)] }

/-- `for filter in filters_in`.  The top of `op_stack` is the head of the list. -/
def splitStep (s : Gather ι) : SearchFilter ι → Option (Gather ι)
  | .and => some (s.push .and)
  | .or => some (s.push .or)
  | .not => some (s.push .not)
  | .«end» =>
    match s.opStack with
    | [] => none
    | _ :: opStack =>
      let s := s.flush
      some { s with filters := s.filters ++ [.«end»], opStack := opStack }
  | .operator .accountId _ (.uint id) => some { s with accountId := id }
  | .operator field op value =>
    some { s with
      operators := update s.operators s.opStack.length
        (s.operators s.opStack.length ++ [.operator field op value]) }
  | .documentSet docs =>
    some { s with
      documentSets := update s.documentSets s.opStack.length
        (some (mergeDocs s.opStack.head? docs (s.documentSets s.opStack.length))) }

/-! ## The second loop -/

/-- Where the scan from position `i` stops: `filters[i]` is kept, or `filters[i..j]` is sent. -/
inductive Scan where
  | keep
  | send (length : ℕ)
  deriving DecidableEq, Repr

/-- `while j < filters.len()`, with `len = j - i`. -/
def scan (depth : ℤ) (len : ℕ) : List (SearchFilter ι) → Scan
  | [] => .send len
  | .and :: l => scan (depth + 1) (len + 1) l
  | .or :: l => scan (depth + 1) (len + 1) l
  | .not :: l => scan (depth + 1) (len + 1) l
  | .«end» :: l =>
    if depth - 1 < 0 then if 0 < len then .send len else .keep
    else scan (depth - 1) (len + 1) l
  | .operator _ _ _ :: l => scan depth (len + 1) l
  | .documentSet _ :: _ => if depth = 0 ∧ 0 < len then .send len else .keep

omit [DecidableEq ι] in
theorem scan_le (l : List (SearchFilter ι)) :
    ∀ (depth : ℤ) (len n : ℕ), scan depth len l = .send n → len ≤ n := by
  induction l with
  | nil =>
    intro depth len n h
    simp only [scan, Scan.send.injEq] at h
    omega
  | cons f l ih =>
    intro depth len n h
    cases f <;> simp only [scan] at h
    case operator => exact le_trans (Nat.le_succ _) (ih _ _ _ h)
    case and => exact le_trans (Nat.le_succ _) (ih _ _ _ h)
    case or => exact le_trans (Nat.le_succ _) (ih _ _ _ h)
    case not => exact le_trans (Nat.le_succ _) (ih _ _ _ h)
    case documentSet docs =>
      split at h
      · simp only [Scan.send.injEq] at h
        omega
      · simp at h
    case «end» =>
      split at h
      · split at h
        · simp only [Scan.send.injEq] at h
          omega
        · simp at h
      · exact le_trans (Nat.le_succ _) (ih _ _ _ h)

omit [DecidableEq ι] in
theorem scan_pos {f : SearchFilter ι} {l : List (SearchFilter ι)} {n : ℕ}
    (h : scan 0 0 (f :: l) = .send n) : 0 < n := by
  cases f <;> simp only [scan] at h
  case operator => exact scan_le l _ _ _ h
  case and => exact scan_le l _ _ _ h
  case or => exact scan_le l _ _ _ h
  case not => exact scan_le l _ _ _ h
  case documentSet docs => simp at h
  case «end» => simp at h

/-- The operator that names the account, in front of every external piece. -/
def splitAccount (accountId : UInt64) : LeafFilter ι :=
  .operator .accountId .equal (.uint accountId)

/-- `external_filters`. -/
def externalFilters (accountId : UInt64) (add_or : Bool) (chunk : List (SearchFilter ι)) :
    List (SearchFilter ι) :=
  .ofTok (.leaf (splitAccount accountId)) :: if add_or then .or :: chunk ++ [.«end»] else chunk

/-- `'outer: while i < filters.len()`: the pieces of what is left of the list, after `last`. -/
def splitLoop (accountId : UInt64) (last : Option (SplitFilter ι)) :
    List (SearchFilter ι) → List (SplitFilter ι)
  | [] => []
  | f :: l =>
    match _h : scan 0 0 (f :: l) with
    | .keep => .internal f :: splitLoop accountId (some (.internal f)) l
    | .send n =>
      let piece := .external (externalFilters accountId
        (last = some (.internal .or) ∧ 1 < n) ((f :: l).take n))
      piece :: splitLoop accountId (some piece) ((f :: l).drop n)
termination_by l => l.length
decreasing_by
  · simp
  · have := scan_pos ‹_›
    simp only [length_drop, length_cons]
    omega

/-- `split_filters`. -/
def splitFilters (filters_in : List (SearchFilter ι)) : Option (List (SplitFilter ι)) := do
  let s ← filters_in.foldlM splitStep new
  let s := { s with opStack := [] }.flush
  if s.accountId = 0xFFFFFFFFFFFFFFFF then none
  else some (splitLoop s.accountId none s.filters)

/-! ## What the first loop makes of a group -/

/-- A gathered group: its nested groups, then its operators, then its document set. -/
inductive Content (ι : Type) where
  | leaves (operators : List (LeafFilter ι)) (docs : Option (Finset ι))
  | group (op : LogicalOp) (members rest : Content ι)

open Content

/-- `SearchFilter::Operator { field: AccountId, value: Uint(..), .. }`. -/
def accountOf : LeafFilter ι → Option UInt64
  | .operator .accountId _ (.uint id) => some id
  | _ => none

/-- The group `t`, behind the operators and the document set gathered before it. -/
def gather (op : Option LogicalOp) (operators : List (LeafFilter ι)) (docs : Option (Finset ι)) :
    Tree ι → Content ι
  | .nil => .leaves operators docs
  | .leaf (.documentSet d) rest => gather op operators (some (mergeDocs op d docs)) rest
  | .leaf (.operator field o value) rest =>
    match accountOf (.operator field o value : LeafFilter ι) with
    | some _ => gather op operators docs rest
    | none => gather op (operators ++ [.operator field o value]) docs rest
  | .group g members rest => .group g (gather (some g) [] none members) (gather op operators docs rest)

/-- The last account the list names. -/
def lastAccount (id : UInt64) : Tree ι → UInt64
  | .nil => id
  | .leaf x rest => lastAccount ((accountOf x).getD id) rest
  | .group _ members rest => lastAccount (lastAccount id members) rest

/-- At most one document set. -/
def docsTree : Option (Finset ι) → Tree ι
  | some d => .leaf (.documentSet d) .nil
  | none => .nil

namespace Content

/-- The members of a gathered group as a tree. -/
def tree : Content ι → Tree ι
  | leaves ops docs => ops.foldr .leaf (docsTree docs)
  | group op members rest => .group op members.tree rest.tree

end Content

section

omit [DecidableEq ι]

theorem foldr_leaf_filters (xs : List (LeafFilter ι)) :
    Tree.filters (xs.foldr .leaf .nil) = xs.map fun x => .ofTok (.leaf x) := by
  induction xs with
  | nil => rfl
  | cons x xs ih =>
    show _ :: Tree.filters (xs.foldr .leaf .nil) = _
    rw [ih]
    rfl

theorem foldr_leaf_append (xs : List (LeafFilter ι)) (t : Tree ι) :
    Nested.append (xs.foldr .leaf .nil) t = xs.foldr .leaf t := by
  induction xs with
  | nil => rfl
  | cons x xs ih =>
    show Nested.leaf x (Nested.append (xs.foldr .leaf .nil) t) = _
    rw [ih]
    rfl

theorem filters_append (t u : Tree ι) : Tree.filters (t.append u) = t.filters ++ u.filters := by
  simp [Tree.filters]

@[simp] theorem filters_nil : Tree.filters (.nil : Tree ι) = [] := rfl

@[simp] theorem filters_leaf (x : LeafFilter ι) (rest : Tree ι) :
    Tree.filters (.leaf x rest) = .ofTok (.leaf x) :: rest.filters := rfl

@[simp] theorem filters_group (op : LogicalOp) (m rest : Tree ι) :
    Tree.filters (.group op m rest) =
      .ofTok (.opening op) :: (m.filters ++ .«end» :: rest.filters) := by
  simp [Tree.filters, ofTok]

end

/-! ## The first loop gathers -/

/-- The state of the first loop inside a group at depth `stack.length`, with `operators` and `docs`
gathered in it so far and nothing at greater depths. -/
structure Gather.At (s : Gather ι) (operators : List (LeafFilter ι)) (docs : Option (Finset ι)) :
    Prop where
  operators_eq : s.operators s.opStack.length = operators.map fun x => .ofTok (.leaf x)
  docs_eq : s.documentSets s.opStack.length = docs
  operators_above : ∀ d, s.opStack.length < d → s.operators d = []
  docs_above : ∀ d, s.opStack.length < d → s.documentSets d = none

/-- The state after the members of a group and the flush. -/
def Gather.after (s : Gather ι) (id : UInt64) (c : Content ι) : Gather ι :=
  { s with
    accountId := id
    filters := s.filters ++ c.tree.filters
    documentSets := update s.documentSets s.opStack.length none
    operators := update s.operators s.opStack.length [] }

omit [DecidableEq ι] in
theorem Gather.At.flush_eq {s : Gather ι} {operators : List (LeafFilter ι)}
    {docs : Option (Finset ι)} (h : s.At operators docs) :
    s.flush = s.after s.accountId (.leaves operators docs) := by
  have hdocs : (docs.map documentSet).toList = Tree.filters (docsTree docs) := by
    cases docs <;> rfl
  rw [flush, after, h.operators_eq, h.docs_eq, tree, ← foldr_leaf_append,
    filters_append, foldr_leaf_filters, hdocs, append_assoc]

omit [DecidableEq ι] in
theorem Gather.after_congr {s s' : Gather ι} (id : UInt64) (c : Content ι)
    (hf : s.filters = s'.filters) (hst : s.opStack = s'.opStack)
    (hd : ∀ d, d ≠ s.opStack.length → s.documentSets d = s'.documentSets d)
    (ho : ∀ d, d ≠ s.opStack.length → s.operators d = s'.operators d) :
    s.after id c = s'.after id c := by
  have hd' : update s.documentSets s.opStack.length none =
      update s'.documentSets s.opStack.length none := by
    funext d
    by_cases h : d = s.opStack.length
    · subst h
      simp
    · rw [update_of_ne h, update_of_ne h, hd d h]
  have ho' : update s.operators s.opStack.length [] =
      update s'.operators s.opStack.length [] := by
    funext d
    by_cases h : d = s.opStack.length
    · subst h
      simp
    · rw [update_of_ne h, update_of_ne h, ho d h]
  rw [after, after, hf, hd', ho', hst]

theorem splitStep_leaf (x : LeafFilter ι) {s : Gather ι} {operators : List (LeafFilter ι)}
    {docs : Option (Finset ι)} (h : s.At operators docs) (rest : Tree ι) :
    ∃ s' operators' docs', splitStep s (.ofTok (.leaf x)) = some s' ∧ s'.At operators' docs' ∧
      s'.opStack = s.opStack ∧ s'.accountId = (accountOf x).getD s.accountId ∧
      (∀ id c, s'.after id c = s.after id c) ∧
      gather s.opStack.head? operators docs (.leaf x rest) =
        gather s.opStack.head? operators' docs' rest := by
  cases x with
  | documentSet d =>
    refine ⟨_, operators, some (mergeDocs s.opStack.head? d docs), rfl, ⟨h.operators_eq, ?_,
      h.operators_above, fun k hk => ?_⟩, rfl, rfl, fun id c => ?_, rfl⟩
    · simp [h.docs_eq]
    · exact (update_of_ne (by simpa using hk.ne') _ _).trans (h.docs_above k hk)
    · exact after_congr id c rfl rfl (fun k hk => update_of_ne hk _ _) fun _ _ => rfl
  | operator field o value =>
    cases hx : accountOf (.operator field o value : LeafFilter ι) with
    | some account =>
      have hstep : splitStep s (.ofTok (.leaf (.operator field o value))) =
          some { s with accountId := account } := by
        unfold accountOf at hx
        split at hx
        · simp_all [ofTok, splitStep]
        · simp at hx
      refine ⟨_, operators, docs, hstep, ⟨h.operators_eq, h.docs_eq, h.operators_above, h.docs_above⟩,
        rfl, rfl, fun _ _ => rfl, ?_⟩
      simp [gather, hx]
    | none =>
      have hstep : splitStep s (.ofTok (.leaf (.operator field o value))) =
          some { s with
            operators := update s.operators s.opStack.length
              (s.operators s.opStack.length ++ [.operator field o value]) } := by
        unfold accountOf at hx
        split at hx
        · simp at hx
        · simp only [ofTok]
          rename_i hne
          rw [splitStep]
          rintro id rfl rfl
          exact hne o id rfl
      refine ⟨_, operators ++ [.operator field o value], docs, hstep, ⟨?_, h.docs_eq, fun k hk => ?_,
        h.docs_above⟩, rfl, rfl, fun id c => ?_, ?_⟩
      · simp [h.operators_eq, ofTok]
      · exact (update_of_ne (by simpa using hk.ne') _ _).trans (h.operators_above k hk)
      · exact after_congr id c rfl rfl (fun _ _ => rfl) fun k hk => update_of_ne hk _ _
      · simp [gather, hx]

/-- **The first loop on the members of a group**, up to the flush. -/
theorem foldlM_splitStep (t : Tree ι) : ∀ (s : Gather ι) (operators : List (LeafFilter ι))
    (docs : Option (Finset ι)), s.At operators docs →
    ∃ s', t.filters.foldlM splitStep s = some s' ∧ s'.opStack = s.opStack ∧
      s'.flush = s.after (lastAccount s.accountId t) (gather s.opStack.head? operators docs t) := by
  induction t with
  | nil =>
    intro s operators docs h
    exact ⟨s, rfl, rfl, h.flush_eq⟩
  | leaf x rest ih =>
    intro s operators docs h
    obtain ⟨s₁, operators', docs', hstep, hat, hst, hid, hafter, hg⟩ := splitStep_leaf x h rest
    obtain ⟨s', hrun, hst', hflush⟩ := ih s₁ operators' docs' hat
    refine ⟨s', ?_, hst'.trans hst, ?_⟩
    · simp only [filters_leaf, foldlM_cons, hstep]
      exact hrun
    · rw [hflush, hafter, hid, hst, hg]
      rfl
  | group op m rest ihm ih =>
    intro s operators docs h
    have hpush : (s.push op).At [] none := by
      refine ⟨h.operators_above _ (by simp [Gather.push]), h.docs_above _ (by simp [Gather.push]),
        fun d hd => h.operators_above d ?_, fun d hd => h.docs_above d ?_⟩
      · simp only [Gather.push, length_cons] at hd
        omega
      · simp only [Gather.push, length_cons] at hd
        omega
    obtain ⟨s₂, hrun₂, hst₂, hflush₂⟩ := ihm (s.push op) [] none hpush
    -- the `End` of the group
    obtain ⟨s₃, hs₃⟩ : ∃ s₃ : Gather ι, s₃ = { s₂.flush with
      filters := s₂.flush.filters ++ [.«end»], opStack := s.opStack } := ⟨_, rfl⟩
    have hend : splitStep s₂ .«end» = some s₃ := by
      rw [hs₃, splitStep, hst₂]
      rfl
    have hst₃ : s₃.opStack = s.opStack := by rw [hs₃]
    have hbelow : ∀ d, s₃.operators d = s.operators d ∧ s₃.documentSets d = s.documentSets d := by
      intro d
      rw [hs₃, hflush₂]
      by_cases hd : d = s.opStack.length + 1
      · subst hd
        simp only [Gather.after, Gather.push, length_cons, update_self]
        exact ⟨(h.operators_above _ (by omega)).symm, (h.docs_above _ (by omega)).symm⟩
      · exact ⟨update_of_ne hd _ _, update_of_ne hd _ _⟩
    have hat : s₃.At operators docs := by
      refine ⟨?_, ?_, fun d hd => ?_, fun d hd => ?_⟩
      · rw [hst₃, (hbelow _).1, h.operators_eq]
      · rw [hst₃, (hbelow _).2, h.docs_eq]
      · rw [(hbelow d).1, h.operators_above d (by rwa [hst₃] at hd)]
      · rw [(hbelow d).2, h.docs_above d (by rwa [hst₃] at hd)]
    obtain ⟨s', hrun, hst', hflush⟩ := ih s₃ operators docs hat
    refine ⟨s', ?_, hst'.trans hst₃, ?_⟩
    · have hopen : splitStep s (.ofTok (.opening op)) = some (s.push op) := by cases op <;> rfl
      simp only [filters_group, foldlM_cons, foldlM_append, hopen]
      show ((Tree.filters m).foldlM splitStep (s.push op)).bind _ = _
      rw [hrun₂]
      show (splitStep s₂ .«end»).bind _ = _
      rw [hend]
      exact hrun
    · have hid : s₃.accountId = lastAccount s.accountId m := by rw [hs₃, hflush₂]; rfl
      have hfilters : s₃.filters = s.filters ++ .ofTok (.opening op) ::
          ((gather (some op) [] none m).tree.filters ++ [.«end»]) := by
        rw [hs₃, hflush₂]
        simp [Gather.after, Gather.push]
      rw [hflush, hst₃, hid]
      have hcongr : ∀ id c, s₃.after id c = Gather.after { s with filters := s₃.filters } id c :=
        fun id c => Gather.after_congr id c rfl hst₃ (fun d _ => (hbelow d).2) fun d _ => (hbelow d).1
      rw [hcongr, Gather.after, Gather.after, hfilters]
      simp [lastAccount, gather, tree]

omit [DecidableEq ι] in
theorem Gather.new_at : (new : Gather ι).At [] none :=
  ⟨rfl, rfl, fun _ _ => rfl, fun _ _ => rfl⟩

/-- `split_filters` on a well-nested list: an error unless the list names an account, else the second
loop over the gathered list. -/
theorem splitFilters_eq (t : Tree ι) :
    splitFilters t.filters =
      if lastAccount 0xFFFFFFFFFFFFFFFF t = 0xFFFFFFFFFFFFFFFF then none
      else some (splitLoop (lastAccount 0xFFFFFFFFFFFFFFFF t) none
        (gather none [] none t).tree.filters) := by
  obtain ⟨s, hrun, hst, hflush⟩ := foldlM_splitStep t new [] none new_at
  have hs : ({ s with opStack := [] } : Gather ι) = s := by
    cases s
    cases hst
    rfl
  simp only [splitFilters, hrun, Option.bind_eq_bind, Option.bind_some, hs]
  rw [hflush]
  rfl

/-! ## The second loop cuts -/

namespace Content

/-- Is there a document set in the group or below it? -/
def hasDocs : Content ι → Bool
  | leaves _ docs => docs.isSome
  | group _ members rest => members.hasDocs || rest.hasDocs

/-- Is there a document set below one of the nested groups? -/
def groupsDirty : Content ι → Bool
  | leaves _ _ => false
  | group _ members rest => members.hasDocs || rest.groupsDirty

/-- The nested groups and the operators. -/
def chunk : Content ι → Tree ι
  | leaves ops _ => ops.foldr .leaf .nil
  | group op members rest => .group op members.tree rest.chunk

def docs : Content ι → Option (Finset ι)
  | leaves _ docs => docs
  | group _ _ rest => rest.docs

/-- The operators are operators, and none names an account. -/
def Plain : Content ι → Prop
  | leaves ops _ => ∀ x ∈ ops, accountOf x = none ∧ ∀ d, x ≠ .documentSet d
  | group _ members rest => members.Plain ∧ rest.Plain

/-- The pieces of the nested groups and operators of a group without document sets below its nested
groups, and its document set. -/
def lastPieces (id : UInt64) (last : Option (SplitFilter ι)) (c : Content ι) : List (SplitFilter ι) :=
  (if c.chunk.filters = [] then []
    else [.external (externalFilters id
      (last = some (.internal .or) ∧ 1 < c.chunk.filters.length) c.chunk.filters)]) ++
    (c.docs.map fun d => SplitFilter.internal (.documentSet d)).toList

/-- The pieces of a group: its nested groups stay as long as one of those ahead holds a document
set. -/
def pieces (id : UInt64) (last : Option (SplitFilter ι)) : Content ι → List (SplitFilter ι)
  | leaves ops docs => lastPieces id last (leaves ops docs)
  | group op members rest =>
    if (group op members rest).groupsDirty then
      .internal (.ofTok (.opening op)) ::
        (members.pieces id (some (.internal (.ofTok (.opening op)))) ++
          .internal .«end» :: rest.pieces id (some (.internal .«end»)))
    else lastPieces id last (group op members rest)

end Content

section

omit [DecidableEq ι]

theorem Content.tree_eq (c : Content ι) : c.tree = c.chunk.append (docsTree c.docs) := by
  induction c with
  | leaves ops docs => exact (foldr_leaf_append ops (docsTree docs)).symm
  | group op m rest _ ih =>
    show Nested.group op m.tree rest.tree = _
    rw [ih]
    rfl

theorem Content.tree_filters (c : Content ι) :
    c.tree.filters = c.chunk.filters ++ (c.docs.map documentSet).toList := by
  rw [tree_eq, filters_append]
  cases c.docs <;> rfl

theorem scan_opening (op : LogicalOp) (d : ℤ) (n : ℕ) (l : List (SearchFilter ι)) :
    scan d n (.ofTok (.opening op) :: l) = scan (d + 1) (n + 1) l := by
  cases op <;> rfl

theorem scan_end {d : ℤ} (hd : 0 < d) (n : ℕ) (l : List (SearchFilter ι)) :
    scan d n (.«end» :: l) = scan (d - 1) (n + 1) l := by
  rw [scan, if_neg (by omega)]

theorem scan_operators {ops : List (LeafFilter ι)}
    (h : ∀ x ∈ ops, accountOf x = none ∧ ∀ d, x ≠ .documentSet d) (l : List (SearchFilter ι)) :
    ∀ (d : ℤ) (n : ℕ), scan d n (Tree.filters (ops.foldr .leaf .nil) ++ l) =
      scan d (n + (Tree.filters (ops.foldr .leaf .nil)).length) l := by
  induction ops with
  | nil => intro d n; rfl
  | cons x ops ih =>
    intro d n
    obtain ⟨hx, hops⟩ := forall_mem_cons.mp h
    cases x with
    | documentSet s => exact absurd rfl (hx.2 s)
    | operator field o value =>
      show scan d (n + 1) (Tree.filters (ops.foldr .leaf .nil) ++ l) = _
      rw [ih hops, foldr_cons, filters_leaf, length_cons]
      congr 1
      omega

variable {c : Content ι} {last : Option (SplitFilter ι)} {l : List (SearchFilter ι)}

theorem scan_clean (hp : c.Plain) (hc : c.hasDocs = false) (l : List (SearchFilter ι)) :
    ∀ (d : ℤ) (n : ℕ), 0 ≤ d →
      scan d n (c.tree.filters ++ l) = scan d (n + c.tree.filters.length) l := by
  induction c generalizing l with
  | leaves ops docs =>
    intro d n _
    obtain rfl : docs = none := by simpa [hasDocs] using hc
    exact scan_operators hp l d n
  | group op m rest ihm ih =>
    intro d n hd
    simp only [hasDocs, Bool.or_eq_false_iff] at hc
    simp only [tree, filters_group, cons_append, append_assoc]
    rw [scan_opening, ihm hp.1 hc.1 _ (d + 1) (n + 1) (by omega), scan_end (by omega),
      add_sub_cancel_right, ih hp.2 hc.2 l d _ hd]
    congr 1
    simp only [length_cons, length_append]
    omega

theorem scan_docs (hp : c.Plain) (hc : c.hasDocs = true) (l : List (SearchFilter ι)) :
    ∀ (d : ℤ) (n : ℕ), 0 < d → scan d n (c.tree.filters ++ l) = .keep := by
  induction c generalizing l with
  | leaves ops docs =>
    intro d n hd
    obtain ⟨s, rfl⟩ := Option.isSome_iff_exists.mp hc
    have h := scan_operators hp (.documentSet s :: l) d n
    have hs : (leaves ops (some s)).tree.filters ++ l =
        Tree.filters (ops.foldr .leaf .nil) ++ .documentSet s :: l := by
      rw [tree_filters]
      simp [chunk, docs]
    rw [hs, h, scan, if_neg (by omega)]
  | group op m rest ihm ih =>
    intro d n hd
    simp only [tree, filters_group, cons_append, append_assoc]
    rw [scan_opening]
    by_cases hm : m.hasDocs = true
    · exact ihm hp.1 hm _ _ _ (by omega)
    · have hrest : rest.hasDocs = true := by
        simpa [hasDocs, hm] using hc
      rw [scan_clean hp.1 (by simpa using hm) _ _ _ (by omega), scan_end (by omega),
        add_sub_cancel_right]
      exact ih hp.2 hrest l d _ hd

theorem scan_groupsDirty (hp : c.Plain) (hc : c.groupsDirty = true) (l : List (SearchFilter ι))
    (n : ℕ) : scan 0 n (c.tree.filters ++ l) = .keep := by
  induction c generalizing l n with
  | leaves ops docs => simp [groupsDirty] at hc
  | group op m rest ihm ih =>
    simp only [tree, filters_group, cons_append, append_assoc]
    rw [scan_opening]
    by_cases hm : m.hasDocs = true
    · exact scan_docs hp.1 hm _ _ _ (by omega)
    · have hrest : rest.groupsDirty = true := by
        simpa [groupsDirty, hm] using hc
      rw [scan_clean hp.1 (by simpa using hm) _ _ _ (by omega)]
      exact ih hp.2 hrest l _

theorem scan_chunk (hp : c.Plain) (hc : c.groupsDirty = false) (l : List (SearchFilter ι)) (n : ℕ) :
    scan 0 n (c.chunk.filters ++ l) = scan 0 (n + c.chunk.filters.length) l := by
  induction c generalizing l n with
  | leaves ops docs => exact scan_operators hp l 0 n
  | group op m rest ihm ih =>
    simp only [groupsDirty, Bool.or_eq_false_iff] at hc
    simp only [chunk, filters_group, cons_append, append_assoc]
    rw [scan_opening, scan_clean hp.1 hc.1 _ _ _ (by omega), scan_end (by omega),
      add_sub_cancel_right, ih hp.2 hc.2]
    congr 1
    simp only [length_cons, length_append]
    omega

theorem splitLoop_keep {id : UInt64} {f : SearchFilter ι} [DecidableEq ι]
    (h : scan 0 0 (f :: l) = .keep) :
    splitLoop id last (f :: l) = .internal f :: splitLoop id (some (.internal f)) l := by
  rw [splitLoop]
  split
  · rfl
  · rename_i n hn
    rw [h] at hn
    cases hn

theorem splitLoop_send {id : UInt64} [DecidableEq ι] {n : ℕ} (hl : l ≠ [])
    (h : scan 0 0 l = .send n) :
    splitLoop id last l =
      .external (externalFilters id (last = some (.internal .or) ∧ 1 < n) (l.take n)) ::
        splitLoop id (some (.external
          (externalFilters id (last = some (.internal .or) ∧ 1 < n) (l.take n)))) (l.drop n) := by
  obtain ⟨f, l, rfl⟩ := exists_cons_of_ne_nil hl
  rw [splitLoop]
  split
  · rename_i hk
    rw [h] at hk
    cases hk
  · rename_i m hm
    rw [h] at hm
    obtain rfl := Scan.send.inj hm
    rfl

end

variable {k : List (SearchFilter ι)}

theorem splitLoop_close (id : UInt64) (hk : k.head?.all (· = .«end»))
    (last last' : Option (SplitFilter ι)) : splitLoop id last k = splitLoop id last' k := by
  cases k with
  | nil => rw [splitLoop, splitLoop]
  | cons f k =>
    obtain rfl : f = .«end» := by simpa using hk
    rw [splitLoop_keep rfl, splitLoop_keep rfl]

theorem splitLoop_lastPieces (id : UInt64) {c : Content ι} (hp : c.Plain)
    (hc : c.groupsDirty = false) (hk : k.head?.all (· = .«end»)) (last : Option (SplitFilter ι)) :
    splitLoop id last (c.tree.filters ++ k) = c.lastPieces id last ++ splitLoop id none k := by
  have hdocs : ∀ last, splitLoop id last ((c.docs.map documentSet).toList ++ k) =
      (c.docs.map fun d => SplitFilter.internal (.documentSet d)).toList ++ splitLoop id none k := by
    intro last
    cases c.docs with
    | none => exact splitLoop_close id hk _ _
    | some d =>
      show splitLoop id last (.documentSet d :: k) = _ :: splitLoop id none k
      rw [splitLoop_keep rfl, splitLoop_close id hk _ none]
  rw [tree_filters, append_assoc, lastPieces]
  by_cases hchunk : c.chunk.filters = []
  · rw [hchunk]
    exact hdocs last
  · have hpos : 0 < c.chunk.filters.length := length_pos_of_ne_nil hchunk
    have hscan : scan 0 0 (c.chunk.filters ++
        ((c.docs.map documentSet).toList ++ k)) = .send c.chunk.filters.length := by
      rw [scan_chunk hp hc, Nat.zero_add]
      cases c.docs with
      | some d =>
        show scan 0 _ (.documentSet d :: k) = _
        rw [scan, if_pos ⟨rfl, hpos⟩]
      | none =>
        cases k with
        | nil => rfl
        | cons f k =>
          obtain rfl : f = .«end» := by simpa using hk
          show scan 0 _ (.«end» :: k) = _
          rw [scan, if_pos (by omega), if_pos hpos]
    rw [splitLoop_send (by simp [hchunk]) hscan, take_left, drop_left, hdocs, if_neg hchunk]
    rfl

/-- **The second loop on a gathered group.** -/
theorem splitLoop_pieces (id : UInt64) (c : Content ι) (hp : c.Plain) :
    ∀ (last : Option (SplitFilter ι)) (k : List (SearchFilter ι)), k.head?.all (· = .«end») →
      splitLoop id last (c.tree.filters ++ k) = c.pieces id last ++ splitLoop id none k := by
  induction c with
  | leaves ops docs => intro last k hk; exact splitLoop_lastPieces id hp rfl hk last
  | group op m rest ihm ih =>
    intro last k hk
    by_cases hc : (group op m rest).groupsDirty = true
    · have hscan := scan_groupsDirty hp hc k 0
      simp only [tree, filters_group, cons_append, append_assoc] at hscan ⊢
      rw [splitLoop_keep hscan, ihm hp.1 _ _ rfl, splitLoop_keep rfl, ih hp.2 _ _ hk, pieces,
        if_pos hc]
      simp
    · rw [splitLoop_lastPieces id hp (by simpa using hc) hk, pieces, if_neg hc]

theorem gather_plain (t : Tree ι) : ∀ (op : Option LogicalOp) (operators : List (LeafFilter ι))
    (docs : Option (Finset ι)), (∀ x ∈ operators, accountOf x = none ∧ ∀ d, x ≠ .documentSet d) →
    (gather op operators docs t).Plain := by
  induction t with
  | nil => exact fun op operators docs h => h
  | leaf x rest ih =>
    intro op operators docs h
    cases x with
    | documentSet d => exact ih op operators _ h
    | operator field o value =>
      cases hx : accountOf (.operator field o value : LeafFilter ι) with
      | some account =>
        simp only [gather, hx]
        exact ih op operators docs h
      | none =>
        simp only [gather, hx]
        refine ih op _ docs fun y hy => ?_
        rcases mem_append.mp hy with hy | hy
        · exact h y hy
        · obtain rfl := mem_singleton.mp hy
          exact ⟨hx, by simp⟩
  | group g m rest ihm ih =>
    intro op operators docs h
    exact ⟨ihm (some g) [] none (by simp), ih op operators docs h⟩

/-- **`split_filters` on a well-nested list**: the pieces of the gathered list, unless the list names
no account. -/
theorem splitFilters_pieces (t : Tree ι) :
    splitFilters t.filters =
      if lastAccount 0xFFFFFFFFFFFFFFFF t = 0xFFFFFFFFFFFFFFFF then none
      else some ((gather none [] none t).pieces (lastAccount 0xFFFFFFFFFFFFFFFF t) none) := by
  have hplain : (gather none [] none t).Plain := gather_plain t none [] none (by simp)
  have hloop := splitLoop_pieces (lastAccount 0xFFFFFFFFFFFFFFFF t) _ hplain none [] rfl
  rw [append_nil, splitLoop, append_nil] at hloop
  rw [splitFilters_eq, hloop]

end MailServer.Store.Search
