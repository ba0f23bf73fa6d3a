import MailServer.Store.Search.Filter

/-!
# The accumulate loop of the filter evaluators

`SearchQuery::filter`, `query_account` and `query_global` run the same loop over the flat filter list:
a stack of `State { op, bm }`, a bitmap that starts absent, and a short circuit that advances the
iterator to the next `End` once an `And` has become empty.  They differ in what a leaf contributes,
and in the group markers they accept, which is the
parameter `Evaluator`.

* `fold`: the same accumulation as a recursion over the tree, without stack and without short circuit.
* `Guarded`: along that recursion no `And` becomes empty in front of a nested group.  Then the skip
  lands on the `End` of the group itself, and the loop computes `fold` (`evalLoop_guarded`).
* Otherwise the skip lands on the `End` of the nested group: the loop closes one group too early for
  the rest of the list, breaks off at an `End` with an empty stack, and never reads what follows
  (`evalLoop_not_guarded`).
-/

namespace MailServer.Store.Search

open MailServer.Lib List

variable {ι : Type} [DecidableEq ι] {ε : Type}

/-- `struct State`: the group marker and the bitmap accumulated so far. -/
structure State (ι : Type) where
  op : LogicalOp
  bm : Option (Finset ι)
  deriving DecidableEq

/-- The block `// Apply logical operation`: the new `state.bm`. -/
def applyResult (mask : Finset ι) (st : State ι) (result : Option (Finset ι)) : Finset ι :=
  match st.bm with
  | some dest =>
    match st.op, result with
    | .and, some result => dest ∩ result
    | .and, none => ∅
    | .or, some result => dest ∪ result
    | .or, none => dest
    | .not, some result => dest ∩ symmDiff result mask
    | .not, none => dest
  | none =>
    match st.op, result with
    | .not, some result => symmDiff result mask
    | _, some result => result
    | .not, none => mask
    | _, none => ∅

/-- `state.bm = Some(..)` after a member. -/
def State.add (mask : Finset ι) (st : State ι) (result : Option (Finset ι)) : State ι :=
  { st with bm := some (applyResult mask st result) }

/-- The condition of the block `// And short-circuit`. -/
def State.Exits (st : State ι) : Prop := st.op = .and ∧ st.bm = some ∅

instance (st : State ι) : Decidable st.Exits := inferInstanceAs (Decidable (_ ∧ _))

/-- The loop of the short circuit: `filters.next()` until `filters.peek()` is an `End`. -/
def skipToEnd (filters : List (SearchFilter ι)) : List (SearchFilter ι) :=
  filters.dropWhile (· != .«end»)

theorem skipToEnd_length_le (filters : List (SearchFilter ι)) :
    (skipToEnd filters).length ≤ filters.length :=
  (dropWhile_sublist _).length_le

/-- What is left of the iterator after the short circuit. -/
def advance (st : State ι) (filters : List (SearchFilter ι)) : List (SearchFilter ι) :=
  if st.Exits then skipToEnd filters else filters

theorem advance_length_le (st : State ι) (filters : List (SearchFilter ι)) :
    (advance st filters).length ≤ filters.length := by
  unfold advance
  split
  · exact skipToEnd_length_le filters
  · exact le_rfl

/-- What a loop does with the filters that differ: `marker` accepts a group marker or fails on it,
`leaf` evaluates a filter that is neither a group marker nor `End`. -/
structure Evaluator (ε ι : Type) where
  marker : LogicalOp → Except ε Unit
  leaf : SearchFilter ι → Except ε (Leaf ι)

/-- `while let Some(filter) = filters.next()`: the state when the loop ends, with the stack explicit. -/
def evalLoop (ev : Evaluator ε ι) (mask : Finset ι) :
    List (SearchFilter ι) → State ι → List (State ι) → Except ε (State ι)
  | [], st, _ => .ok st
  | .and :: filters, st, stack => do
    ev.marker .and
    evalLoop ev mask filters ⟨.and, none⟩ (st :: stack)
  | .or :: filters, st, stack => do
    ev.marker .or
    evalLoop ev mask filters ⟨.or, none⟩ (st :: stack)
  | .not :: filters, st, stack => do
    ev.marker .not
    evalLoop ev mask filters ⟨.not, none⟩ (st :: stack)
  | .«end» :: _, st, [] => .ok st
  | .«end» :: filters, st, prev :: stack =>
    let st' := prev.add mask st.bm
    evalLoop ev mask (advance st' filters) st' stack
  | filter :: filters, st, stack =>
    match ev.leaf filter with
    | .error e => .error e
    | .ok .skip => evalLoop ev mask filters st stack
    | .ok (.result result) =>
      let st' := st.add mask result
      evalLoop ev mask (advance st' filters) st' stack
termination_by filters => filters.length
decreasing_by
  all_goals simp only [length_cons]
  all_goals first | omega | exact Nat.lt_succ_of_le (advance_length_le _ _)

/-! ## Leaves that fail -/

section

/-- A leaf that fails to evaluate is skipped. -/
def Evaluator.total (ev : Evaluator ε ι) : Evaluator ε ι where
  marker := ev.marker
  leaf filter :=
    match ev.leaf filter with
    | .ok leaf => .ok leaf
    | .error _ => .ok .skip

/-- Every filter of the list evaluates without an error. -/
def Evaluator.Evaluates (ev : Evaluator ε ι) (filters : List (SearchFilter ι)) : Prop :=
  ∀ filter ∈ filters, ∃ leaf, ev.leaf filter = .ok leaf

instance (ev : Evaluator ε ι) (filters : List (SearchFilter ι)) :
    Decidable (ev.Evaluates filters) :=
  decidable_of_iff (∀ filter ∈ filters, (ev.leaf filter).isOk) <| by
    refine forall₂_congr fun filter _ => ?_
    cases ev.leaf filter <;> simp [Except.isOk, Except.toBool]

omit [DecidableEq ι] in
theorem Evaluator.total_leaf {ev : Evaluator ε ι} {filter : SearchFilter ι} {leaf : Leaf ι}
    (h : ev.leaf filter = .ok leaf) : ev.total.leaf filter = .ok leaf := by
  simp only [Evaluator.total, h]

theorem advance_subset (st : State ι) (filters : List (SearchFilter ι)) :
    advance st filters ⊆ filters := by
  unfold advance
  split
  · exact (dropWhile_sublist _).subset
  · exact List.Subset.refl _

theorem evalLoop_total {ev : Evaluator ε ι} (mask : Finset ι) (filters : List (SearchFilter ι))
    (st : State ι) (stack : List (State ι)) (h : ev.Evaluates filters) :
    evalLoop ev mask filters st stack = evalLoop ev.total mask filters st stack := by
  fun_induction evalLoop ev mask filters st stack with
  | case1 => simp [evalLoop]
  | case2 filters st stack ih | case3 filters st stack ih | case4 filters st stack ih =>
    have h' : ev.Evaluates filters := fun f hf => h f (mem_cons_of_mem _ hf)
    rw [evalLoop, ih h']
    rfl
  | case5 => simp [evalLoop]
  | case6 st filters prev stack st' ih =>
    rw [evalLoop]
    exact ih fun f hf => h f (mem_cons_of_mem _ (advance_subset _ _ hf))
  | case7 filter filters st stack hand hor hnot hnil hend e he =>
    obtain ⟨leaf, hl⟩ := h filter mem_cons_self
    rw [he] at hl
    exact absurd hl (by simp)
  | case8 filter filters st stack hand hor hnot hnil hend he ih =>
    rw [evalLoop, Evaluator.total_leaf he]
    · exact ih fun f hf => h f (mem_cons_of_mem _ hf)
    all_goals assumption
  | case9 filter filters st stack hand hor hnot hnil hend result he st' ih =>
    rw [evalLoop, Evaluator.total_leaf he]
    · exact ih fun f hf => h f (mem_cons_of_mem _ (advance_subset _ _ hf))
    all_goals assumption

end

/-! ## The loop on the list of a tree -/

section

variable {α : Type} (ev : Evaluator ε ι) (mask : Finset ι)

/-- The leaves `α` of a tree as filters: `emb x` is an operator or a document set, and evaluating it
gives `val x`. -/
structure Resolves (emb : α → LeafFilter ι) (val : α → Leaf ι) : Prop where
  eval : ∀ x, ev.leaf (.ofTok (.leaf (emb x))) = .ok (val x)

/-- Every group marker of the tree is accepted. -/
def Evaluator.Accepts (ev : Evaluator ε ι) : Nested LogicalOp α → Prop
  | .nil => True
  | .leaf _ rest => ev.Accepts rest
  | .group op members rest => ev.marker op = .ok () ∧ ev.Accepts members ∧ ev.Accepts rest

/-- The filter of a token of a tree with leaves in `α`. -/
def embTok (emb : α → LeafFilter ι) : Tok LogicalOp α → SearchFilter ι
  | .leaf x => .ofTok (.leaf (emb x))
  | .opening op => .ofTok (.opening op)
  | .closing => .«end»

variable {ev mask} {emb : α → LeafFilter ι} {val : α → Leaf ι}

theorem skipToEnd_embTok (l : List (Tok LogicalOp α)) :
    skipToEnd (l.map (embTok emb)) = (skipToClose l).map (embTok emb) := by
  induction l with
  | nil => rfl
  | cons t l ih =>
    unfold skipToEnd at ih ⊢
    rcases t with x | (_ | _ | _) | _
    · simp only [map_cons, embTok]
      cases emb x <;> simpa [SearchFilter.ofTok] using ih
    · simpa [embTok, SearchFilter.ofTok] using ih
    · simpa [embTok, SearchFilter.ofTok] using ih
    · simpa [embTok, SearchFilter.ofTok] using ih
    · simp [embTok]

/-- `advance` on tokens. -/
def advanceTok (st : State ι) (l : List (Tok LogicalOp α)) : List (Tok LogicalOp α) :=
  if st.Exits then skipToClose l else l

theorem advance_embTok (st : State ι) (l : List (Tok LogicalOp α)) :
    advance st (l.map (embTok emb)) = (advanceTok st l).map (embTok emb) := by
  unfold advance advanceTok
  split
  · exact skipToEnd_embTok l
  · rfl

theorem advanceTok_of_exits {st : State ι} (h : st.Exits) (l : List (Tok LogicalOp α)) :
    advanceTok st l = skipToClose l := if_pos h

theorem advanceTok_of_not_exits {st : State ι} (h : ¬ st.Exits) (l : List (Tok LogicalOp α)) :
    advanceTok st l = l := if_neg h

@[simp] theorem evalLoop_nil (st : State ι) (stack : List (State ι)) :
    evalLoop ev mask [] st stack = .ok st := by
  unfold evalLoop; rfl

theorem evalLoop_opening (op : LogicalOp) (l : List (Tok LogicalOp α)) (st : State ι)
    (stack : List (State ι)) :
    evalLoop ev mask ((.opening op :: l).map (embTok emb)) st stack =
      (ev.marker op).bind fun _ => evalLoop ev mask (l.map (embTok emb)) ⟨op, none⟩ (st :: stack) := by
  cases op <;> simp [embTok, SearchFilter.ofTok, evalLoop, bind]

theorem evalLoop_opening_of_accepts {op : LogicalOp} (h : ev.marker op = .ok ())
    (l : List (Tok LogicalOp α)) (st : State ι) (stack : List (State ι)) :
    evalLoop ev mask ((.opening op :: l).map (embTok emb)) st stack =
      evalLoop ev mask (l.map (embTok emb)) ⟨op, none⟩ (st :: stack) := by
  rw [evalLoop_opening, h]
  rfl

theorem evalLoop_closing_nil (l : List (Tok LogicalOp α)) (st : State ι) :
    evalLoop ev mask ((.closing :: l).map (embTok emb)) st [] = .ok st := by
  simp [embTok, evalLoop]

theorem evalLoop_closing_cons (l : List (Tok LogicalOp α)) (st prev : State ι)
    (stack : List (State ι)) :
    evalLoop ev mask ((.closing :: l).map (embTok emb)) st (prev :: stack) =
      evalLoop ev mask ((advanceTok (prev.add mask st.bm) l).map (embTok emb))
        (prev.add mask st.bm) stack := by
  simp [embTok, evalLoop, advance_embTok]

theorem evalLoop_leaf (hr : Resolves ev emb val) (x : α) (l : List (Tok LogicalOp α))
    (st : State ι) (stack : List (State ι)) :
    evalLoop ev mask ((.leaf x :: l).map (embTok emb)) st stack =
      match val x with
      | .skip => evalLoop ev mask (l.map (embTok emb)) st stack
      | .result result =>
        evalLoop ev mask ((advanceTok (st.add mask result) l).map (embTok emb))
          (st.add mask result) stack := by
  have h := hr.eval x
  simp only [map_cons, embTok]
  cases hx : emb x <;> rw [hx] at h <;> simp only [SearchFilter.ofTok] at h ⊢
  all_goals
    rw [evalLoop]
    · simp only [h]
      cases val x <;> simp [advance_embTok]
    all_goals simp

theorem evalLoop_leaf_skip (hr : Resolves ev emb val) {x : α} (hx : val x = .skip)
    (l : List (Tok LogicalOp α)) (st : State ι) (stack : List (State ι)) :
    evalLoop ev mask ((.leaf x :: l).map (embTok emb)) st stack =
      evalLoop ev mask (l.map (embTok emb)) st stack := by
  rw [evalLoop_leaf hr, hx]

theorem evalLoop_leaf_result (hr : Resolves ev emb val) {x : α} {bm : Option (Finset ι)}
    (hx : val x = .result bm) (l : List (Tok LogicalOp α)) (st : State ι) (stack : List (State ι)) :
    evalLoop ev mask ((.leaf x :: l).map (embTok emb)) st stack =
      evalLoop ev mask ((advanceTok (st.add mask bm) l).map (embTok emb))
        (st.add mask bm) stack := by
  rw [evalLoop_leaf hr, hx]

end

/-! ## The accumulation as a recursion over the tree -/

section

variable {α : Type} (val : α → Leaf ι) (mask : Finset ι)

/-- The members of a group, added to its state one after the other. -/
def fold : State ι → Nested LogicalOp α → State ι
  | st, .nil => st
  | st, .leaf x rest =>
    match val x with
    | .skip => fold st rest
    | .result bm => fold (st.add mask bm) rest
  | st, .group op members rest => fold (st.add mask (fold ⟨op, none⟩ members).bm) rest

/-- No `And` becomes empty in front of a nested group of its own. -/
def Guarded : State ι → Nested LogicalOp α → Prop
  | _, .nil => True
  | st, .leaf x rest =>
    match val x with
    | .skip => Guarded st rest
    | .result bm => if (st.add mask bm).Exits then rest.Flat else Guarded (st.add mask bm) rest
  | st, .group op members rest =>
    Guarded ⟨op, none⟩ members ∧
      if (st.add mask (fold val mask ⟨op, none⟩ members).bm).Exits then rest.Flat
      else Guarded (st.add mask (fold val mask ⟨op, none⟩ members).bm) rest

instance decidableGuarded : (st : State ι) → (t : Nested LogicalOp α) →
    Decidable (Guarded val mask st t)
  | _, .nil => isTrue trivial
  | st, .leaf x rest =>
    match hx : val x with
    | .skip =>
      have := decidableGuarded st rest
      decidable_of_iff (Guarded val mask st rest) (by simp [Guarded, hx])
    | .result bm =>
      have := decidableGuarded (st.add mask bm) rest
      decidable_of_iff (if (st.add mask bm).Exits then rest.Flat
        else Guarded val mask (st.add mask bm) rest) (by simp [Guarded, hx])
  | st, .group op members rest =>
    have := decidableGuarded ⟨op, none⟩ members
    have := decidableGuarded (st.add mask (fold val mask ⟨op, none⟩ members).bm) rest
    decidable_of_iff (Guarded val mask ⟨op, none⟩ members ∧
      if (st.add mask (fold val mask ⟨op, none⟩ members).bm).Exits then rest.Flat
      else Guarded val mask (st.add mask (fold val mask ⟨op, none⟩ members).bm) rest) Iff.rfl

/-- The same, except at the top level and in the `And` groups whose enclosing groups are all `And`s:
once such a group is empty the whole conjunction is, wherever the skip lands. -/
def GuardedTop : State ι → Nested LogicalOp α → Prop
  | _, .nil => True
  | st, .leaf x rest =>
    match val x with
    | .skip => GuardedTop st rest
    | .result bm => (st.add mask bm).Exits ∨ GuardedTop (st.add mask bm) rest
  | st, .group op members rest =>
    (if op = .and then GuardedTop ⟨.and, none⟩ members else Guarded val mask ⟨op, none⟩ members) ∧
    ((st.add mask (fold val mask ⟨op, none⟩ members).bm).Exits ∨
      GuardedTop (st.add mask (fold val mask ⟨op, none⟩ members).bm) rest)

instance decidableGuardedTop : (st : State ι) → (t : Nested LogicalOp α) →
    Decidable (GuardedTop val mask st t)
  | _, .nil => isTrue trivial
  | st, .leaf x rest =>
    match hx : val x with
    | .skip =>
      have := decidableGuardedTop st rest
      decidable_of_iff (GuardedTop val mask st rest) (by simp [GuardedTop, hx])
    | .result bm =>
      have := decidableGuardedTop (st.add mask bm) rest
      decidable_of_iff ((st.add mask bm).Exits ∨ GuardedTop val mask (st.add mask bm) rest)
        (by simp [GuardedTop, hx])
  | st, .group op members rest =>
    have := decidableGuardedTop ⟨.and, none⟩ members
    have := decidableGuardedTop (st.add mask (fold val mask ⟨op, none⟩ members).bm) rest
    inferInstanceAs (Decidable ((if op = .and then GuardedTop val mask ⟨.and, none⟩ members
      else Guarded val mask ⟨op, none⟩ members) ∧
      ((st.add mask (fold val mask ⟨op, none⟩ members).bm).Exits ∨
        GuardedTop val mask (st.add mask (fold val mask ⟨op, none⟩ members).bm) rest)))

/-- The group has a member that contributes a bitmap. -/
def HasMember : Nested LogicalOp α → Prop
  | .nil => False
  | .leaf x rest => val x ≠ .skip ∨ HasMember rest
  | .group _ _ _ => True

instance decidableHasMember : (t : Nested LogicalOp α) → Decidable (HasMember val t)
  | .nil => isFalse id
  | .leaf x rest =>
    have := decidableHasMember rest
    inferInstanceAs (Decidable (val x ≠ .skip ∨ HasMember val rest))
  | .group _ _ _ => isTrue trivial

/-- Every nested `And` and `Not` group has a member. -/
def Filled : Nested LogicalOp α → Prop
  | .nil => True
  | .leaf _ rest => Filled rest
  | .group op members rest => (op = .or ∨ HasMember val members) ∧ Filled members ∧ Filled rest

instance decidableFilled : (t : Nested LogicalOp α) → Decidable (Filled val t)
  | .nil => isTrue trivial
  | .leaf _ rest => decidableFilled rest
  | .group op members rest =>
    have := decidableFilled members
    have := decidableFilled rest
    inferInstanceAs (Decidable ((op = .or ∨ HasMember val members) ∧ Filled val members ∧
      Filled val rest))

variable {val mask}

variable {x : α} {bm : Option (Finset ι)}

theorem fold_leaf_skip (hx : val x = .skip) (st : State ι) (rest : Nested LogicalOp α) :
    fold val mask st (.leaf x rest) = fold val mask st rest := by
  simp [fold, hx]

theorem fold_leaf_result (hx : val x = .result bm) (st : State ι) (rest : Nested LogicalOp α) :
    fold val mask st (.leaf x rest) = fold val mask (st.add mask bm) rest := by
  simp [fold, hx]

theorem guarded_leaf_skip (hx : val x = .skip) (st : State ι) (rest : Nested LogicalOp α) :
    Guarded val mask st (.leaf x rest) ↔ Guarded val mask st rest := by
  simp [Guarded, hx]

theorem guarded_leaf_result (hx : val x = .result bm) (st : State ι) (rest : Nested LogicalOp α) :
    Guarded val mask st (.leaf x rest) ↔
      if (st.add mask bm).Exits then rest.Flat else Guarded val mask (st.add mask bm) rest := by
  simp [Guarded, hx]

theorem guarded_group (op : LogicalOp) (st : State ι) (m rest : Nested LogicalOp α) :
    Guarded val mask st (.group op m rest) ↔ Guarded val mask ⟨op, none⟩ m ∧
      if (st.add mask (fold val mask ⟨op, none⟩ m).bm).Exits then rest.Flat
      else Guarded val mask (st.add mask (fold val mask ⟨op, none⟩ m).bm) rest := Iff.rfl

theorem guardedTop_leaf_skip (hx : val x = .skip) (st : State ι) (rest : Nested LogicalOp α) :
    GuardedTop val mask st (.leaf x rest) ↔ GuardedTop val mask st rest := by
  simp [GuardedTop, hx]

theorem guardedTop_leaf_result (hx : val x = .result bm) (st : State ι)
    (rest : Nested LogicalOp α) :
    GuardedTop val mask st (.leaf x rest) ↔
      (st.add mask bm).Exits ∨ GuardedTop val mask (st.add mask bm) rest := by
  simp [GuardedTop, hx]

theorem add_of_exits {st : State ι} (h : st.Exits) (r : Option (Finset ι)) :
    st.add mask r = st := by
  obtain ⟨op, bm⟩ := st
  obtain ⟨rfl, rfl⟩ := h
  cases r <;> simp [State.add, applyResult]

@[simp] theorem add_op (st : State ι) (r : Option (Finset ι)) : (st.add mask r).op = st.op := rfl

theorem fold_of_exits {st : State ι} (h : st.Exits) (t : Nested LogicalOp α) :
    fold val mask st t = st := by
  induction t with
  | nil => rfl
  | leaf x rest ih =>
    cases hx : val x with
    | skip => rw [fold_leaf_skip hx, ih]
    | result bm => rw [fold_leaf_result hx, add_of_exits h, ih]
  | group op m rest _ ih => rw [fold, add_of_exits h, ih]

end

/-! ## The loop follows the recursion while it is guarded -/

section

variable {α : Type} {ev : Evaluator ε ι} {mask : Finset ι}
  {emb : α → LeafFilter ι} {val : α → Leaf ι}

variable {st : State ι} {rest members : Nested LogicalOp α} {l : List (Tok LogicalOp α)}
  {stack : List (State ι)}

theorem evalLoop_advanceTok (hl : skipToClose l = l)
    (hg : if st.Exits then rest.Flat else Guarded val mask st rest) (ih : Guarded val mask st rest →
      evalLoop ev mask ((rest.tokens ++ l).map (embTok emb)) st stack =
        evalLoop ev mask (l.map (embTok emb)) (fold val mask st rest) stack) :
    evalLoop ev mask ((advanceTok st (rest.tokens ++ l)).map (embTok emb)) st stack =
      evalLoop ev mask (l.map (embTok emb)) (fold val mask st rest) stack := by
  by_cases h : st.Exits
  · rw [if_pos h] at hg
    rw [advanceTok_of_exits h, skipToClose_flat rest hg, hl, fold_of_exits h]
  · rw [if_neg h] at hg
    rw [advanceTok_of_not_exits h, ih hg]

/-- **The loop on a guarded group** leaves the accumulation of its members and stops in front of the
`End` of the group (`l` starts with an `End`, or the list is over). -/
theorem evalLoop_guarded (hr : Resolves ev emb val) (t : Nested LogicalOp α) :
    ∀ (st : State ι) (stack : List (State ι)) (l : List (Tok LogicalOp α)), ev.Accepts t →
      Guarded val mask st t → skipToClose l = l →
      evalLoop ev mask ((t.tokens ++ l).map (embTok emb)) st stack =
        evalLoop ev mask (l.map (embTok emb)) (fold val mask st t) stack := by
  induction t with
  | nil => intro st stack l _ _ _; rfl
  | leaf x rest ih =>
    intro st stack l ha hg hl
    rw [Nested.tokens_leaf, cons_append]
    cases hx : val x with
    | skip =>
      rw [evalLoop_leaf_skip hr hx, fold_leaf_skip hx]
      exact ih st stack l ha ((guarded_leaf_skip hx st rest).mp hg) hl
    | result bm =>
      rw [evalLoop_leaf_result hr hx, fold_leaf_result hx]
      exact evalLoop_advanceTok hl ((guarded_leaf_result hx st rest).mp hg)
        fun hg => ih _ stack l ha hg hl
  | group op m rest ihm ih =>
    intro st stack l ha hg hl
    obtain ⟨hop, ham, har⟩ := ha
    obtain ⟨hm, hg⟩ := (guarded_group op st m rest).mp hg
    rw [Nested.tokens_group, cons_append, append_assoc, cons_append,
      evalLoop_opening_of_accepts hop, ihm _ _ _ ham hm (by simp), evalLoop_closing_cons]
    exact evalLoop_advanceTok hl hg fun hg => ih _ stack l har hg hl

/-! ## The loop with closing brackets to spare -/

/-- **With more `End`s ahead than open groups the loop breaks off before the end of the list**: what
follows is never read. -/
theorem evalLoop_surplus (hr : Resolves ev emb val) (tail : List (Tok LogicalOp α)) :
    ∀ (n : ℕ) (l : List (Tok LogicalOp α)) (st : State ι) (stack : List (State ι)), l.length ≤ n →
      (stack.length : ℤ) < surplus l →
      evalLoop ev mask ((l ++ tail).map (embTok emb)) st stack =
        evalLoop ev mask (l.map (embTok emb)) st stack := by
  -- the member just added may exit; the skip stays inside `l`
  have key : ∀ (n : ℕ), (∀ (l : List (Tok LogicalOp α)) (st : State ι) (stack : List (State ι)),
      l.length ≤ n → (stack.length : ℤ) < surplus l →
      evalLoop ev mask ((l ++ tail).map (embTok emb)) st stack =
        evalLoop ev mask (l.map (embTok emb)) st stack) →
      ∀ (l : List (Tok LogicalOp α)) (st : State ι) (stack : List (State ι)), l.length ≤ n →
        (stack.length : ℤ) < surplus l →
        evalLoop ev mask ((advanceTok st (l ++ tail)).map (embTok emb)) st stack =
          evalLoop ev mask ((advanceTok st l).map (embTok emb)) st stack := by
    intro n ih l st stack hn hs
    by_cases h : st.Exits
    · rw [advanceTok_of_exits h, advanceTok_of_exits h, skipToClose_append l tail (by omega)]
      have := surplus_le_skipToClose l (by omega)
      exact ih _ st stack (le_trans (skipToClose_length_le l) hn) (by omega)
    · rw [advanceTok_of_not_exits h, advanceTok_of_not_exits h]
      exact ih l st stack hn hs
  intro n
  induction n with
  | zero =>
    intro l st stack hn hs
    obtain rfl := length_eq_zero_iff.mp (Nat.le_zero.mp hn)
    simp only [surplus] at hs
    omega
  | succ n ih =>
    intro l st stack hn hs
    cases l with
    | nil => simp only [surplus] at hs; omega
    | cons t l =>
      simp only [length_cons, Nat.add_le_add_iff_right] at hn
      cases t with
      | leaf x =>
        cases hx : val x with
        | skip =>
          rw [cons_append, evalLoop_leaf_skip hr hx, evalLoop_leaf_skip hr hx]
          exact ih l st stack hn hs
        | result bm =>
          rw [cons_append, evalLoop_leaf_result hr hx, evalLoop_leaf_result hr hx]
          exact key n ih l _ stack hn hs
      | opening op =>
        simp only [surplus] at hs
        rw [cons_append, evalLoop_opening, evalLoop_opening]
        congr 1
        funext _
        exact ih l _ _ hn (by simp only [length_cons]; omega)
      | closing =>
        simp only [surplus] at hs
        cases stack with
        | nil => rw [cons_append, evalLoop_closing_nil, evalLoop_closing_nil]
        | cons prev stack =>
          simp only [length_cons] at hs
          rw [cons_append, evalLoop_closing_cons, evalLoop_closing_cons]
          exact key n ih l _ stack hn (by omega)

theorem evalLoop_advanceTok_not_guarded (hr : Resolves ev emb val) {tail : List (Tok LogicalOp α)}
    (hs : surplus l = stack.length)
    (hg : ¬ if st.Exits then rest.Flat else Guarded val mask st rest)
    (ih : ¬ Guarded val mask st rest →
      evalLoop ev mask ((rest.tokens ++ (l ++ tail)).map (embTok emb)) st stack =
        evalLoop ev mask ((rest.tokens ++ l).map (embTok emb)) st stack) :
    evalLoop ev mask ((advanceTok st (rest.tokens ++ (l ++ tail))).map (embTok emb)) st stack =
      evalLoop ev mask ((advanceTok st (rest.tokens ++ l)).map (embTok emb)) st stack := by
  by_cases h : st.Exits
  · rw [if_pos h] at hg
    obtain ⟨h1, hpos⟩ := skipToClose_not_flat rest hg (l ++ tail)
    obtain ⟨h2, -⟩ := skipToClose_not_flat rest hg l
    rw [advanceTok_of_exits h, advanceTok_of_exits h, h1, h2, ← append_assoc]
    exact evalLoop_surplus hr tail _ _ st stack le_rfl (by rw [surplus_append]; omega)
  · rw [if_neg h] at hg
    rw [advanceTok_of_not_exits h, advanceTok_of_not_exits h]
    exact ih hg

/-- **The loop on a group that is not guarded** never reads what follows the enclosing groups: `l`
closes all of them, and whatever comes after `l` makes no difference. -/
theorem evalLoop_not_guarded (hr : Resolves ev emb val) (tail : List (Tok LogicalOp α))
    (t : Nested LogicalOp α) :
    ∀ (st : State ι) (stack : List (State ι)) (l : List (Tok LogicalOp α)),
      ev.Accepts t → ¬ Guarded val mask st t → surplus l = stack.length → skipToClose l = l →
      evalLoop ev mask ((t.tokens ++ (l ++ tail)).map (embTok emb)) st stack =
        evalLoop ev mask ((t.tokens ++ l).map (embTok emb)) st stack := by
  induction t with
  | nil => intro st stack l _ hg; exact absurd trivial hg
  | leaf x rest ih =>
    intro st stack l ha hg hs hl
    rw [Nested.tokens_leaf, cons_append, cons_append]
    cases hx : val x with
    | skip =>
      rw [evalLoop_leaf_skip hr hx, evalLoop_leaf_skip hr hx]
      exact ih st stack l ha (fun h => hg ((guarded_leaf_skip hx st rest).mpr h)) hs hl
    | result bm =>
      rw [evalLoop_leaf_result hr hx, evalLoop_leaf_result hr hx]
      exact evalLoop_advanceTok_not_guarded hr hs
        (fun h => hg ((guarded_leaf_result hx st rest).mpr h)) fun hg => ih _ stack l ha hg hs hl
  | group op m rest ihm ih =>
    intro st stack l ha hg hs hl
    obtain ⟨hop, ham, har⟩ := ha
    simp only [Nested.tokens_group, cons_append, append_assoc]
    rw [evalLoop_opening_of_accepts hop, evalLoop_opening_of_accepts hop]
    by_cases hm : Guarded val mask ⟨op, none⟩ m
    · rw [evalLoop_guarded hr m _ _ _ ham hm (by simp), evalLoop_guarded hr m _ _ _ ham hm (by simp),
        evalLoop_closing_cons, evalLoop_closing_cons]
      exact evalLoop_advanceTok_not_guarded hr hs
        (fun h => hg ((guarded_group op st m rest).mpr ⟨hm, h⟩)) fun hg => ih _ stack l har hg hs hl
    · have h := ihm ⟨op, none⟩ (st :: stack) (.closing :: (rest.tokens ++ l)) ham hm
        (by simp [hs]) (by simp)
      simpa only [cons_append, append_assoc] using h

/-! ## The top level -/

theorem evalLoop_collapse : ∀ (n : ℕ) (l : List (Tok LogicalOp α)) (st : State ι)
    (stack : List (State ι)), l.length ≤ n → skipToClose l = l → st.Exits →
    (∀ s ∈ stack, s.op = .and) →
    ∃ r, evalLoop ev mask (l.map (embTok emb)) st stack = .ok r ∧ r.Exits := by
  intro n
  induction n with
  | zero =>
    intro l st stack hn hl he hstack
    obtain rfl := length_eq_zero_iff.mp (Nat.le_zero.mp hn)
    exact ⟨st, evalLoop_nil st stack, he⟩
  | succ n ih =>
    intro l st stack hn hl he hstack
    cases l with
    | nil => exact ⟨st, evalLoop_nil st stack, he⟩
    | cons t l =>
      cases t with
      | leaf x =>
        have := skipToClose_length_le l
        have := congrArg List.length hl
        simp only [skipToClose, length_cons] at this
        omega
      | opening op =>
        have := skipToClose_length_le l
        have := congrArg List.length hl
        simp only [skipToClose, length_cons] at this
        omega
      | closing =>
        cases stack with
        | nil => exact ⟨st, evalLoop_closing_nil l st, he⟩
        | cons prev stack =>
          have he' : (prev.add mask st.bm).Exits := by
            refine ⟨hstack prev (by simp), ?_⟩
            have hop := hstack prev (by simp)
            obtain ⟨op, bm⟩ := prev
            obtain rfl : op = .and := hop
            rw [he.2]
            cases bm <;> simp [State.add, applyResult]
          rw [evalLoop_closing_cons, advanceTok_of_exits he']
          refine ih _ _ _ ?_ (skipToClose_idem l) he' fun s hs => hstack s (by simp [hs])
          simp only [length_cons] at hn
          exact le_trans (skipToClose_length_le l) (by omega)

/-- The outcome of a guarded chain of `And`s: the loop goes on behind the group, or both the loop and
the recursion have nothing left. -/
def TopOutcome (ev : Evaluator ε ι) (mask : Finset ι)
    (emb : α → LeafFilter ι) (val : α → Leaf ι) (t : Nested LogicalOp α) (st : State ι)
    (stack : List (State ι)) (l : List (Tok LogicalOp α))
    (run : List (Tok LogicalOp α)) : Prop :=
  evalLoop ev mask (run.map (embTok emb)) st stack =
      evalLoop ev mask (l.map (embTok emb)) (fold val mask st t) stack ∨
    (∃ r, evalLoop ev mask (run.map (embTok emb)) st stack = .ok r ∧ r.Exits) ∧
      (fold val mask st t).Exits

theorem evalLoop_advanceTok_top (hstack : ∀ s ∈ stack, s.op = .and)
    (hg : st.Exits ∨ GuardedTop val mask st rest) (ih : GuardedTop val mask st rest →
      TopOutcome ev mask emb val rest st stack l (rest.tokens ++ l)) :
    TopOutcome ev mask emb val rest st stack l (advanceTok st (rest.tokens ++ l)) := by
  by_cases h : st.Exits
  · rw [advanceTok_of_exits h]
    refine Or.inr ⟨?_, by rw [fold_of_exits h]; exact h⟩
    exact evalLoop_collapse _ _ st stack le_rfl (skipToClose_idem _) h hstack
  · rw [advanceTok_of_not_exits h]
    exact ih (hg.resolve_left h)

theorem evalLoop_guardedTop (hr : Resolves ev emb val) (t : Nested LogicalOp α) :
    ∀ (st : State ι) (stack : List (State ι)) (l : List (Tok LogicalOp α)),
      ev.Accepts t → GuardedTop val mask st t → skipToClose l = l → st.op = .and →
      (∀ s ∈ stack, s.op = .and) →
      TopOutcome ev mask emb val t st stack l (t.tokens ++ l) := by
  induction t with
  | nil => intro st stack l _ _ _ _ _; exact Or.inl rfl
  | leaf x rest ih =>
    intro st stack l ha hg hl hop hstack
    unfold TopOutcome
    rw [Nested.tokens_leaf, cons_append]
    cases hx : val x with
    | skip =>
      rw [evalLoop_leaf_skip hr hx, fold_leaf_skip hx]
      exact ih st stack l ha ((guardedTop_leaf_skip hx st rest).mp hg) hl hop hstack
    | result bm =>
      rw [evalLoop_leaf_result hr hx, fold_leaf_result hx]
      exact evalLoop_advanceTok_top hstack ((guardedTop_leaf_result hx st rest).mp hg)
        fun hg => ih _ stack l ha hg hl hop hstack
  | group op m rest ihm ih =>
    intro st stack l ha hg hl hop hstack
    obtain ⟨hmark, ham, har⟩ := ha
    obtain ⟨hm, hg⟩ := hg
    have hrest : TopOutcome ev mask emb val rest
        (st.add mask (fold val mask ⟨op, none⟩ m).bm) stack l
        (advanceTok (st.add mask (fold val mask ⟨op, none⟩ m).bm) (rest.tokens ++ l)) :=
      evalLoop_advanceTok_top hstack hg fun hg => ih _ stack l har hg hl hop hstack
    unfold TopOutcome
    simp only [Nested.tokens_group, cons_append, append_assoc]
    rw [evalLoop_opening_of_accepts hmark, fold]
    by_cases hand : op = .and
    · subst hand
      rcases ihm ⟨.and, none⟩ (st :: stack) (.closing :: (rest.tokens ++ l)) ham hm (by simp) rfl
        (by simpa [hop] using hstack) with h | ⟨h, he⟩
      · rw [h, evalLoop_closing_cons]
        exact hrest
      · -- the inner conjunction is empty, hence the outer one
        refine Or.inr ⟨h, ?_⟩
        have he' : (st.add mask (fold val mask ⟨.and, none⟩ m).bm).Exits := by
          obtain ⟨sop, bm⟩ := st
          obtain rfl : sop = .and := hop
          rw [he.2]
          cases bm <;> simp [State.add, applyResult, State.Exits]
        rw [fold_of_exits he']
        exact he'
    · rw [if_neg hand] at hm
      rw [evalLoop_guarded hr m _ _ _ ham hm (by simp), evalLoop_closing_cons]
      exact hrest

/-- **The loop on a whole list**: it never fails, and its bitmap is that of the recursion. -/
theorem evalLoop_top (hr : Resolves ev emb val) (t : Nested LogicalOp α)
    (ha : ev.Accepts t) (hg : GuardedTop val mask ⟨.and, none⟩ t) :
    ∃ r, evalLoop ev mask (t.tokens.map (embTok emb)) ⟨.and, none⟩ [] = .ok r ∧
      r.bm = (fold val mask ⟨.and, none⟩ t).bm := by
  have h := evalLoop_guardedTop hr t ⟨.and, none⟩ [] [] ha hg rfl rfl (by simp)
  rw [append_nil] at h
  rcases h with h | ⟨⟨r, h, he⟩, hf⟩
  · exact ⟨_, h.trans (evalLoop_nil _ _), rfl⟩
  · exact ⟨r, h, he.2.trans hf.2.symm⟩

/-! ## An `And` inside an `Or` -/

/-- The members of an `And` that stands in an `Or`, one leaf beside it and one behind the `Or`. -/
def inOr (members : Nested LogicalOp α) (beside behind : α) : Nested LogicalOp α :=
  .group .or (.group .and members (.leaf beside .nil)) (.leaf behind .nil)

theorem evalLoop_inOr_of_guarded (hr : Resolves ev emb val) {beside behind : α} {w : Finset ι}
    {b : Option (Finset ι)} (hw : val beside = .result (some w)) (hb : val behind = .result b)
    (hand : ev.marker .and = .ok ()) (hor : ev.marker .or = .ok ()) (ha : ev.Accepts members)
    (hg : Guarded val mask ⟨.and, none⟩ members) :
    ∃ r, evalLoop ev mask ((inOr members beside behind).tokens.map (embTok emb)) ⟨.and, none⟩ [] =
      .ok r ∧ r.bm.getD ∅ = ((fold val mask ⟨.and, none⟩ members).bm.getD ∅ ∪ w) ∩ b.getD ∅ := by
  have htop : GuardedTop val mask ⟨.and, none⟩ (inOr members beside behind) := by
    refine ⟨?_, Or.inr ((guardedTop_leaf_result hb _ _).mpr (Or.inr trivial))⟩
    refine ⟨hg, ?_⟩
    refine (guarded_leaf_result hw _ _).mpr ?_
    split <;> trivial
  have hacc : ev.Accepts (inOr members beside behind) := ⟨hor, ⟨hand, ha, trivial⟩, trivial⟩
  obtain ⟨r, h1, h2⟩ := evalLoop_top hr _ hacc htop
  refine ⟨r, h1, ?_⟩
  rw [h2]
  generalize hx : (fold val mask ⟨.and, none⟩ members).bm = x
  simp only [inOr, hx, fold, hw, hb, State.add]
  cases x <;> cases b <;> simp [applyResult]

theorem evalLoop_inOr_of_not_guarded (hr : Resolves ev emb val) (hand : ev.marker .and = .ok ())
    (hor : ev.marker .or = .ok ()) (ha : ev.Accepts members)
    (hg : ¬ Guarded val mask ⟨.and, none⟩ members) (beside behind behind' : α) :
    evalLoop ev mask ((inOr members beside behind).tokens.map (embTok emb)) ⟨.and, none⟩ [] =
      evalLoop ev mask ((inOr members beside behind').tokens.map (embTok emb)) ⟨.and, none⟩ [] := by
  have key : ∀ behind : α,
      evalLoop ev mask ((inOr members beside behind).tokens.map (embTok emb)) ⟨.and, none⟩ [] =
        evalLoop ev mask ((members.tokens ++
          [Tok.closing, Tok.leaf beside, Tok.closing]).map (embTok emb))
          ⟨.and, none⟩ [⟨.or, none⟩, ⟨.and, none⟩] := by
    intro behind
    have h := evalLoop_not_guarded hr [Tok.leaf behind] members ⟨.and, none⟩
      [⟨.or, none⟩, ⟨.and, none⟩] [Tok.closing, Tok.leaf beside, Tok.closing] ha hg (by simp) rfl
    rw [← h, ← evalLoop_opening_of_accepts hand, ← evalLoop_opening_of_accepts hor]
    simp [inOr]
  rw [key behind, key behind']

end

/-! ## The recursion computes the meaning of the tree -/

section

variable {α : Type} {mask : Finset ι} {val : α → Leaf ι} {i : ι}

theorem mem_applyResult (hi : i ∈ mask) (st : State ι) (r : Option (Finset ι)) :
    decide (i ∈ applyResult mask st r) =
      match st.bm with
      | some d => join st.op (decide (i ∈ d)) (member mask i st.op (decide (i ∈ r.getD ∅)))
      | none => member mask i st.op (decide (i ∈ r.getD ∅)) := by
  obtain ⟨op, bm⟩ := st
  rw [Bool.eq_iff_iff, decide_eq_true_iff]
  cases bm <;> cases op <;> cases r <;>
    simp [applyResult, join, member, hi, Finset.mem_symmDiff]

variable {t : Nested LogicalOp α}

theorem selects_of_not_hasMember (op : LogicalOp)
    (h : ¬ HasMember val t) : selects val mask i op t = (op != .or) := by
  induction t with
  | nil => rfl
  | leaf x rest ih =>
    simp only [HasMember, not_or, not_not] at h
    simp only [selects, h.1]
    exact ih h.2
  | group op' m rest => exact absurd trivial h

theorem fold_of_not_hasMember (h : ¬ HasMember val t) (st : State ι) : fold val mask st t = st := by
  induction t with
  | nil => rfl
  | leaf x rest ih =>
    simp only [HasMember, not_or, not_not] at h
    rw [fold_leaf_skip h.1, ih h.2]
  | group op' m rest => exact absurd trivial h

/-- What the accumulation of the members `t` onto `st` has to be at document `i`. -/
def FoldsTo (val : α → Leaf ι) (mask : Finset ι) (i : ι) (st : State ι)
    (t : Nested LogicalOp α) : Prop :=
  match st.bm with
  | some d => ∃ d', (fold val mask st t).bm = some d' ∧
      decide (i ∈ d') = join st.op (decide (i ∈ d)) (selects val mask i st.op t)
  | none => HasMember val t → ∃ d', (fold val mask st t).bm = some d' ∧
      decide (i ∈ d') = selects val mask i st.op t

theorem FoldsTo.step (hi : i ∈ mask) {st : State ι} {r : Option (Finset ι)}
    {rest : Nested LogicalOp α} (ih : FoldsTo val mask i (st.add mask r) rest) :
    ∃ d', (fold val mask (st.add mask r) rest).bm = some d' ∧
      decide (i ∈ d') = match st.bm with
        | some d => join st.op (decide (i ∈ d)) (join st.op
            (member mask i st.op (decide (i ∈ r.getD ∅))) (selects val mask i st.op rest))
        | none => join st.op (member mask i st.op (decide (i ∈ r.getD ∅)))
            (selects val mask i st.op rest) := by
  obtain ⟨d', h1, h2⟩ := ih
  refine ⟨d', h1, ?_⟩
  rw [h2, mem_applyResult hi]
  cases hb : st.bm with
  | none => simp [State.add]
  | some d => simp [join_assoc]

/-- **The recursion computes the meaning**: at a document of the mask, when no nested `And` or `Not`
is without members. -/
theorem foldsTo (hi : i ∈ mask) (t : Nested LogicalOp α) (hf : Filled val t) (st : State ι) :
    FoldsTo val mask i st t := by
  induction t generalizing st with
  | nil =>
    unfold FoldsTo
    cases hb : st.bm with
    | none => exact fun h => absurd h id
    | some d => exact ⟨d, hb, by cases h : st.op <;> simp [join]⟩
  | leaf x rest ih =>
    cases hx : val x with
    | skip =>
      have := ih hf st
      unfold FoldsTo at this ⊢
      simpa only [fold_leaf_skip hx, selects, hx, HasMember, ne_eq, not_true_eq_false, false_or]
        using this
    | result bm =>
      obtain ⟨d', h1, h2⟩ := (ih hf (st.add mask bm)).step hi
      unfold FoldsTo
      simp only [fold_leaf_result hx, selects, hx]
      cases hb : st.bm with
      | none => exact fun _ => ⟨d', h1, by simpa [hb] using h2⟩
      | some d => exact ⟨d', h1, by simpa [hb] using h2⟩
  | group op m rest ihm ih =>
    obtain ⟨hop, hfm, hfr⟩ := hf
    -- the bitmap the group hands to its parent
    have hm : decide (i ∈ (fold val mask ⟨op, none⟩ m).bm.getD ∅) = selects val mask i op m := by
      by_cases hmem : HasMember val m
      · obtain ⟨d', h1, h2⟩ := ihm hfm ⟨op, none⟩ hmem
        rw [h1]
        exact h2
      · obtain rfl := hop.resolve_right hmem
        rw [fold_of_not_hasMember hmem, selects_of_not_hasMember _ hmem]
        rfl
    obtain ⟨d', h1, h2⟩ := (ih hfr (st.add mask (fold val mask ⟨op, none⟩ m).bm)).step hi
    rw [hm] at h2
    unfold FoldsTo
    simp only [selects]
    cases hb : st.bm with
    | none => exact fun _ => ⟨d', h1, by simpa [hb] using h2⟩
    | some d => exact ⟨d', h1, by simpa [hb] using h2⟩

theorem selects_inOr {beside behind : α} {w : Finset ι} {b : Option (Finset ι)}
    (hw : val beside = .result (some w)) (hb : val behind = .result b) (members : Nested LogicalOp α) :
    selects val mask i .and (inOr members beside behind) =
      ((selects val mask i .and members || decide (i ∈ w)) && decide (i ∈ b.getD ∅)) := by
  simp [inOr, selects, hw, hb, join, member]

end

end MailServer.Store.Search
