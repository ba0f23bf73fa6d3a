import MailServer.Common.Expr.Tree

/-!
# The parser reads what trees are written as

* `Reads`: what the tokens of an operand leave, whatever lies on the stack below.
* `Tree.parse_tokens`: the program of a tree.
-/

namespace MailServer.Common.Expr

open List Parser

variable {L : Language}

/-! ## Pending operators -/

/-- An operator that a binary operator of some precedence takes from the stack. -/
def IsOperator (level : ℕ) : Operator L → Prop
  | (.binaryOperator op, _) => level ≤ op.precedence
  | (.unaryOperator _, _) => level ≤ 8
  | _ => False

def Pending (level : ℕ) (pend : List (Operator L)) : Prop := ∀ o ∈ pend, IsOperator level o

/-- An operator leaves the stack. -/
def emit (output : List (ExpressionItem L)) : Operator L → List (ExpressionItem L)
  | (.binaryOperator op, jmpPos) => updateJmpPos jmpPos output ++ [.binaryOperator op]
  | (.unaryOperator op, _) => output ++ [.unaryOperator op]
  | _ => output

/-- All pending operators leave the stack. -/
def flush (pend : List (Operator L)) (output : List (ExpressionItem L)) : List (ExpressionItem L) :=
  pend.foldl emit output

/-- The stack below an operand: its operators bind less tightly. -/
def Below (level : ℕ) : List (Operator L) → Prop
  | [] => True
  | (.openParen, _) :: _ | (.openBracket, _) :: _ => True
  | (.binaryOperator op, _) :: _ => op.precedence < level
  | (.unaryOperator _, _) :: _ => 8 ≤ level
  | _ => False

section

variable {level : ℕ} {pend stack : List (Operator L)} {output : List (ExpressionItem L)}

theorem precedence_lt (op : BinaryOperator) : op.precedence < 8 := by
  cases op <;> decide

variable {o : Operator L} {op : BinaryOperator}

theorem isOperator_iff : IsOperator level o ↔
    (∃ op jmpPos, o = (.binaryOperator op, jmpPos) ∧ level ≤ op.precedence) ∨
      ∃ op jmpPos, o = (.unaryOperator op, jmpPos) ∧ level ≤ 8 := by
  constructor
  · intro h
    unfold IsOperator at h
    split at h
    next op jmpPos => exact .inl ⟨op, jmpPos, rfl, h⟩
    next op jmpPos => exact .inr ⟨op, jmpPos, rfl, h⟩
    next => exact h.elim
  · rintro (⟨op, jmpPos, rfl, h⟩ | ⟨op, jmpPos, rfl, h⟩)
    · exact h
    · exact h

theorem Pending.mono {level' : ℕ} (hpend : Pending level pend) (h : level' ≤ level) : Pending level' pend := by
  intro o ho
  rcases isOperator_iff.1 (hpend o ho) with ⟨op, jmpPos, rfl, hle⟩ | ⟨op, jmpPos, rfl, hle⟩
  · exact h.trans hle
  · exact h.trans hle

theorem Pending.concat (hpend : Pending level pend) (ho : IsOperator level o) :
    Pending level (pend ++ [o]) :=
  forall_mem_append.mpr ⟨hpend, forall_mem_singleton.mpr ho⟩

theorem Pending.eq_nil (h : Pending 9 pend) : pend = [] := by
  refine eq_nil_iff_forall_not_mem.mpr fun o ho => ?_
  rcases isOperator_iff.1 (h o ho) with ⟨op, -, -, hle⟩ | ⟨op, -, -, hle⟩
  · exact absurd (precedence_lt op) (by omega)
  · omega

theorem flush_concat (o : Operator L) : flush (pend ++ [o]) output = emit (flush pend output) o :=
  foldl_append

theorem popClosed_pending (paren : Bool) (h : Pending level pend) :
    popClosed paren (pend ++ stack) output = popClosed paren stack (flush pend output) := by
  induction pend generalizing output with
  | nil => rfl
  | cons o pend ih =>
    obtain ⟨ho, hpend⟩ := forall_mem_cons.mp h
    rcases isOperator_iff.1 ho with ⟨op, jmpPos, rfl, -⟩ | ⟨op, jmpPos, rfl, -⟩
    · exact ih hpend
    · exact ih hpend

theorem popHigher_pending (h : Pending op.precedence pend) :
    popHigher op (pend ++ stack) output = popHigher op stack (flush pend output) := by
  induction pend generalizing output with
  | nil => rfl
  | cons o pend ih =>
    obtain ⟨ho, hpend⟩ := forall_mem_cons.mp h
    rcases isOperator_iff.1 ho with ⟨top, jmpPos, rfl, hle⟩ | ⟨top, jmpPos, rfl, -⟩
    · exact (if_pos hle).trans (ih hpend)
    · exact ih hpend

theorem popArgument_pending (h : Pending level pend) :
    popArgument (pend ++ stack) output = popArgument stack (flush pend output) := by
  induction pend generalizing output with
  | nil => rfl
  | cons o pend ih =>
    obtain ⟨ho, hpend⟩ := forall_mem_cons.mp h
    rcases isOperator_iff.1 ho with ⟨op, jmpPos, rfl, -⟩ | ⟨op, jmpPos, rfl, -⟩
    · exact ih hpend
    · exact ih hpend

theorem popAll_pending (h : Pending level pend) : popAll pend output = .ok (flush pend output) := by
  induction pend generalizing output with
  | nil => rfl
  | cons o pend ih =>
    obtain ⟨ho, hpend⟩ := forall_mem_cons.mp h
    rcases isOperator_iff.1 ho with ⟨op, jmpPos, rfl, -⟩ | ⟨op, jmpPos, rfl, -⟩
    · exact ih hpend
    · exact ih hpend

/-! ## Below an operand -/

theorem below_cases (h : Below level stack) :
    stack = [] ∨ (∃ jmpPos rest, stack = (.openParen, jmpPos) :: rest) ∨
      (∃ jmpPos rest, stack = (.openBracket, jmpPos) :: rest) ∨
      (∃ op jmpPos rest, stack = (.binaryOperator op, jmpPos) :: rest ∧ op.precedence < level) ∨
      ∃ op jmpPos rest, stack = (.unaryOperator op, jmpPos) :: rest ∧ 8 ≤ level := by
  unfold Below at h
  split at h
  next => exact .inl rfl
  next jmpPos rest => exact .inr (.inl ⟨jmpPos, rest, rfl⟩)
  next jmpPos rest => exact .inr (.inr (.inl ⟨jmpPos, rest, rfl⟩))
  next op jmpPos rest => exact .inr (.inr (.inr (.inl ⟨op, jmpPos, rest, rfl, h⟩)))
  next op jmpPos rest => exact .inr (.inr (.inr (.inr ⟨op, jmpPos, rest, rfl, h⟩)))
  next => exact h.elim

theorem Below.mono {level' : ℕ} (hstack : Below level stack) (h : level ≤ level') : Below level' stack := by
  rcases below_cases hstack with rfl | ⟨_, _, rfl⟩ | ⟨_, _, rfl⟩ | ⟨op, _, _, rfl, hlt⟩ | ⟨op, _, _, rfl, hle⟩
  · trivial
  · trivial
  · trivial
  · exact hlt.trans_le h
  · exact hle.trans h

theorem popHigher_below (h : Below op.precedence stack) :
    popHigher op stack output = (stack, output) := by
  rcases below_cases h with rfl | ⟨_, _, rfl⟩ | ⟨_, _, rfl⟩ | ⟨top, _, _, rfl, hlt⟩ | ⟨top, _, _, rfl, hle⟩
  · rfl
  · rfl
  · rfl
  · exact if_neg (not_le.mpr hlt)
  · exact absurd (precedence_lt op) (by omega)

theorem countItem_below (h : Below level stack) (ho : o.addItem = o) :
    countItem (o :: stack) = o :: stack := by
  rcases below_cases h with rfl | ⟨_, _, rfl⟩ | ⟨_, _, rfl⟩ | ⟨_, _, _, rfl, -⟩ | ⟨_, _, _, rfl, -⟩
  · exact congrArg (· :: []) ho
  · rfl
  · rfl
  · rfl
  · rfl

theorem Below.countItem (h : Below level stack) : Below level (countItem stack) := by
  rcases below_cases h with rfl | ⟨_, rest, rfl⟩ | ⟨_, rest, rfl⟩ | ⟨_, _, rest, rfl, -⟩ | ⟨_, _, rest, rfl, -⟩
  · trivial
  · cases rest <;> trivial
  · cases rest <;> trivial
  · cases rest <;> exact h
  · cases rest <;> exact h

end

/-! ## Operands -/

/-- The stack of counts with one more operand. -/
def incCounts : List ℤ → List ℤ
  | [] => []
  | count :: counts => (count + 1) :: counts

/-- The operator stack after an operand, if its first token is counted. -/
def counted (leads : Bool) (counts : List ℤ) (stack : List (Operator L)) : List (Operator L) :=
  if leads = true ∧ counts ≠ [] then countItem stack else stack

def feed (p : Parser L) (tokens : List (Token L)) : Except String (Parser L) := tokens.foldlM step p

/-- What the tokens of an operand leave: its program, apart from the operators that are still on the stack. -/
def Reads (level : ℕ) (tokens : List (Token L)) (code : List (ExpressionItem L)) (leads ends : Bool) : Prop :=
  ∀ output stack counts, Below level stack → ∃ output' pend,
    feed ⟨output, stack, counts, false⟩ tokens =
        .ok ⟨output', pend ++ counted leads counts stack, incCounts counts, ends⟩ ∧
      Pending level pend ∧ flush pend output' = output ++ code

section

variable {level : ℕ} {tokens : List (Token L)} {code : List (ExpressionItem L)} {leads ends : Bool}

theorem feed_append {p p' : Parser L} (h : feed p tokens = .ok p') (others : List (Token L)) :
    feed p (tokens ++ others) = feed p' others := by
  unfold feed at h ⊢
  rw [foldlM_append, h]
  rfl

theorem feed_cons {p p' : Parser L} {token : Token L} (h : p.step token = .ok p') (others : List (Token L)) :
    feed p (token :: others) = feed p' others := by
  unfold feed
  rw [foldlM_cons, h]
  rfl

theorem incArgCount_eq (output : List (ExpressionItem L)) (stack : List (Operator L)) (counts : List ℤ) (last : Bool) :
    (⟨output, stack, counts, last⟩ : Parser L).incArgCount =
      ⟨output, counted true counts stack, incCounts counts, last⟩ := by
  cases counts <;> rfl

theorem decArgCount_incCounts (output : List (ExpressionItem L)) (stack : List (Operator L)) (counts : List ℤ)
    (last : Bool) :
    (⟨output, stack, incCounts counts, last⟩ : Parser L).decArgCount = ⟨output, stack, counts, last⟩ := by
  cases counts with
  | nil => rfl
  | cons count counts =>
    show (⟨output, stack, (count + 1 - 1) :: counts, last⟩ : Parser L) = _
    rw [add_sub_cancel_right]

variable {stack : List (Operator L)}

theorem Below.counted (h : Below level stack) (leads : Bool) (counts : List ℤ) :
    Below level (counted leads counts stack) := by
  unfold Expr.counted
  split_ifs
  · exact h.countItem
  · exact h

theorem counted_below (h : Below level stack) {o : Operator L} (ho : o.addItem = o) (leads : Bool)
    (counts : List ℤ) : counted leads counts (o :: stack) = o :: stack := by
  unfold counted
  split_ifs
  · exact countItem_below h ho
  · rfl

theorem Reads.operand {token : Token L} {item : ExpressionItem L}
    (h : ∀ p : Parser L, p.step token = .ok (p.operand item ends)) : Reads 9 [token] [item] true ends := by
  intro output stack counts _
  refine ⟨output ++ [item], [], ?_, fun o ho => (not_mem_nil ho).elim, rfl⟩
  rw [feed_cons (h _), Parser.operand, incArgCount_eq]
  rfl

theorem Reads.unary (op : UnaryOperator) (hlevel : 8 ≤ level) (h : Reads level tokens code leads ends) :
    Reads 8 (.unaryOperator op :: tokens) (code ++ [.unaryOperator op]) false ends := by
  intro output stack counts hstack
  obtain ⟨output', pend, hfeed, hpend, hflush⟩ := h output ((.unaryOperator op, none) :: stack) counts hlevel
  rw [counted_below hstack rfl] at hfeed
  refine ⟨output', pend ++ [(.unaryOperator op, none)], ?_, (hpend.mono hlevel).concat le_rfl, ?_⟩
  · rw [append_assoc]
    exact hfeed
  · rw [flush_concat, hflush, ← append_assoc]
    rfl

theorem modify_append (f : ExpressionItem L → ExpressionItem L) (item : ExpressionItem L) :
    ∀ before after : List (ExpressionItem L),
      (before ++ item :: after).modify before.length f = before ++ f item :: after
  | [], _ => rfl
  | first :: before, after => congrArg (first :: ·) (modify_append f item before after)

theorem updateJmpPos_append (before after : List (ExpressionItem L)) (val : Bool) :
    updateJmpPos (some before.length) (before ++ .jmpIf val 0 :: after) =
      before ++ .jmpIf val (after.length + 1) :: after := by
  have hlen : (before ++ ExpressionItem.jmpIf val 0 :: after).length - before.length = after.length + 1 := by
    rw [length_append, length_cons]
    omega
  unfold updateJmpPos
  dsimp only
  rw [hlen, modify_append]
  rfl

/-- The program of a binary operator. -/
def binaryCode (op : BinaryOperator) (left right : List (ExpressionItem L)) : List (ExpressionItem L) :=
  match op.jumpsIf with
  | some val => left ++ [.jmpIf val (right.length + 1)] ++ right ++ [.binaryOperator op]
  | none => left ++ right ++ [.binaryOperator op]

theorem Reads.binary {op : BinaryOperator} {l r : ℕ} {left right : List (Token L)}
    {leftCode rightCode : List (ExpressionItem L)} {leftLeads leftEnds rightLeads : Bool}
    (hl : op.precedence ≤ l) (hr : op.precedence < r) (hleft : Reads l left leftCode leftLeads leftEnds)
    (hright : Reads r right rightCode rightLeads ends) :
    Reads op.precedence (left ++ .binaryOperator op :: right) (binaryCode op leftCode rightCode) leftLeads ends := by
  intro output stack counts hstack
  obtain ⟨output₁, pend₁, hfeed₁, hpend₁, hflush₁⟩ := hleft output stack counts (hstack.mono hl)
  rw [feed_append hfeed₁, feed_cons rfl]
  have hbelow := hstack.counted leftLeads counts
  have hpop : popHigher op (pend₁ ++ counted leftLeads counts stack) output₁ =
      (counted leftLeads counts stack, output ++ leftCode) := by
    rw [popHigher_pending (hpend₁.mono hl), hflush₁, popHigher_below hbelow]
  unfold binaryOperator
  rw [decArgCount_incCounts, hpop]
  cases hjump : op.jumpsIf with
  | none =>
    obtain ⟨output₂, pend₂, hfeed₂, hpend₂, hflush₂⟩ :=
      hright (output ++ leftCode) ((.binaryOperator op, none) :: counted leftLeads counts stack) counts hr
    rw [counted_below hbelow rfl] at hfeed₂
    refine ⟨output₂, pend₂ ++ [(.binaryOperator op, none)], ?_, (hpend₂.mono hr.le).concat le_rfl, ?_⟩
    · rw [append_assoc]
      exact hfeed₂
    · rw [flush_concat, hflush₂, binaryCode, hjump, append_assoc]
      show output ++ (leftCode ++ rightCode) ++ [ExpressionItem.binaryOperator op] = _
      rw [append_assoc]
  | some val =>
    obtain ⟨output₂, pend₂, hfeed₂, hpend₂, hflush₂⟩ :=
      hright (output ++ leftCode ++ [.jmpIf val 0])
        ((.binaryOperator op, some (output ++ leftCode).length) :: counted leftLeads counts stack) counts hr
    rw [counted_below hbelow rfl] at hfeed₂
    refine ⟨output₂, pend₂ ++ [(.binaryOperator op, some (output ++ leftCode).length)], ?_,
      (hpend₂.mono hr.le).concat le_rfl, ?_⟩
    · rw [append_assoc]
      exact hfeed₂
    · rw [flush_concat, hflush₂, binaryCode, hjump, append_assoc (output ++ leftCode)]
      show updateJmpPos (some (output ++ leftCode).length) (output ++ leftCode ++ .jmpIf val 0 :: rightCode) ++
        [ExpressionItem.binaryOperator op] = _
      rw [updateJmpPos_append]
      simp [append_assoc]

theorem Reads.paren (h : Reads level tokens code leads ends) :
    Reads 9 (.openParen :: (tokens ++ [.closeParen])) code false true := by
  intro output stack counts hstack
  obtain ⟨output', pend, hfeed, hpend, hflush⟩ := h output ((.openParen, none) :: stack) counts trivial
  rw [counted_below hstack rfl] at hfeed
  refine ⟨output ++ code, [], ?_, fun o ho => (not_mem_nil ho).elim, rfl⟩
  show feed ⟨output, (.openParen, none) :: stack, counts, false⟩ _ = _
  rw [feed_append hfeed]
  refine feed_cons ?_ []
  show close _ true = _
  unfold close
  rw [popClosed_pending true hpend, hflush]
  rcases below_cases hstack with rfl | ⟨_, _, rfl⟩ | ⟨_, _, rfl⟩ | ⟨_, _, _, rfl, -⟩ | ⟨_, _, _, rfl, -⟩
  · rfl
  · rfl
  · rfl
  · rfl
  · rfl

end

/-! ## Arguments -/

/-- A parenthesis or bracket on the stack. -/
def IsOpen (o : Operator L) : Prop := o = (.openParen, none) ∨ o = (.openBracket, none)

/-- The stack after the items that are counted. -/
def countItems : List Bool → List (Operator L) → List (Operator L)
  | [], stack => stack
  | leads :: rest, stack => countItems rest (if leads then countItem stack else stack)

/-- What the tokens of arguments leave over an open parenthesis or bracket. -/
def ReadsAll (tokens : List (Token L)) (code : List (ExpressionItem L)) (leads : List Bool) : Prop :=
  ∀ output o stack count counts, IsOpen o → ∃ output' pend last,
    feed ⟨output, o :: stack, count :: counts, false⟩ tokens =
        .ok ⟨output', pend ++ countItems leads (o :: stack), (count + leads.length) :: counts, last⟩ ∧
      Pending 0 pend ∧ flush pend output' = output ++ code

/-- What the tokens of further arguments leave. -/
def ReadsMore (tokens : List (Token L)) (code : List (ExpressionItem L)) (leads : List Bool) : Prop :=
  ∀ output o stack pend count counts last, IsOpen o → Pending 0 pend → ∃ output' pend' last',
    feed ⟨output, pend ++ o :: stack, count :: counts, last⟩ tokens =
        .ok ⟨output', pend' ++ countItems leads (o :: stack), (count + leads.length) :: counts, last'⟩ ∧
      Pending 0 pend' ∧ flush pend' output' = flush pend output ++ code

section

variable {level : ℕ} {tokens others : List (Token L)} {code codes : List (ExpressionItem L)} {leads ends : Bool}
  {rest : List Bool}

theorem IsOpen.below {o : Operator L} (h : IsOpen o) (stack : List (Operator L)) : Below level (o :: stack) := by
  rcases h with rfl | rfl <;> trivial

theorem IsOpen.countItem {o : Operator L} (h : IsOpen o) (stack : List (Operator L)) :
    ∃ stack', countItem (o :: stack) = o :: stack' := by
  cases stack with
  | nil => rcases h with rfl | rfl <;> exact ⟨[], rfl⟩
  | cons below stack => exact ⟨below.addItem :: stack, rfl⟩

theorem ReadsAll.nil : ReadsAll ([] : List (Token L)) [] [] := by
  intro output o stack count counts _
  refine ⟨output, [], false, ?_, fun o ho => (not_mem_nil ho).elim, (append_nil _).symm⟩
  show Except.ok _ = Except.ok (⟨output, o :: stack, (count + ((0 : ℕ) : ℤ)) :: counts, false⟩ : Parser L)
  rw [Nat.cast_zero, add_zero]

theorem ReadsAll.cons (h : Reads level tokens code leads ends) (hmore : ReadsMore others codes rest) :
    ReadsAll (tokens ++ others) (code ++ codes) (leads :: rest) := by
  intro output o stack count counts ho
  obtain ⟨output₁, pend₁, hfeed₁, hpend₁, hflush₁⟩ := h output (o :: stack) (count :: counts) (ho.below stack)
  obtain ⟨stack', hstack'⟩ : ∃ stack', counted leads (count :: counts) (o :: stack) = o :: stack' := by
    unfold counted
    split_ifs
    · exact ho.countItem stack
    · exact ⟨stack, rfl⟩
  have hcounted : (if leads then countItem (o :: stack) else o :: stack) = o :: stack' := by
    rw [← hstack', counted]
    simp
  rw [hstack'] at hfeed₁
  obtain ⟨output₂, pend₂, last, hfeed₂, hpend₂, hflush₂⟩ :=
    hmore output₁ o stack' pend₁ (count + 1) counts ends ho (hpend₁.mono (Nat.zero_le _))
  refine ⟨output₂, pend₂, last, ?_, hpend₂, ?_⟩
  · rw [feed_append hfeed₁, countItems, hcounted, length_cons, Nat.cast_add, Nat.cast_one, add_comm _ (1 : ℤ),
      ← add_assoc]
    exact hfeed₂
  · rw [hflush₂, hflush₁, append_assoc]

theorem ReadsMore.nil : ReadsMore ([] : List (Token L)) [] [] := by
  intro output o stack pend count counts last _ hpend
  refine ⟨output, pend, last, ?_, hpend, (append_nil _).symm⟩
  show Except.ok _ = Except.ok (⟨output, pend ++ o :: stack, (count + ((0 : ℕ) : ℤ)) :: counts, last⟩ : Parser L)
  rw [Nat.cast_zero, add_zero]

theorem ReadsMore.cons (h : ReadsAll tokens code (leads :: rest)) :
    ReadsMore (.comma :: tokens) code (leads :: rest) := by
  intro output o stack pend count counts last ho hpend
  obtain ⟨output', pend', last', hfeed, hpend', hflush⟩ := h (flush pend output) o stack count counts ho
  refine ⟨output', pend', last', ?_, hpend', hflush⟩
  rw [feed_cons rfl]
  have hpop : popArgument (pend ++ o :: stack) output = (o :: stack, flush pend output) := by
    rw [popArgument_pending hpend]
    rcases ho with rfl | rfl <;> rfl
  unfold comma
  rw [hpop]
  exact hfeed

theorem countItems_same {o t : Operator L} {stack : List (Operator L)} (h : t.addItem = t) :
    ∀ leads : List Bool, countItems leads (o :: t :: stack) = o :: t :: stack
  | [] => rfl
  | leads :: rest => by
    have hitem : countItem (o :: t :: stack) = o :: t :: stack := congrArg (o :: · :: stack) h
    rw [countItems, hitem, ite_self]
    exact countItems_same h rest

theorem addItem_function (name : String) {id : ℕ} (hid : id ≠ idArrayBuild) (numArgs : ℕ) :
    Operator.addItem ((.function name id numArgs, none) : Operator L) = (.function name id numArgs, none) := by
  simp [Operator.addItem, if_neg hid]

theorem countItems_array (name : String) (o : Operator L) (stack : List (Operator L)) :
    ∀ (leads : List Bool) (numArgs : ℕ), (∀ b ∈ leads, b = true) →
      countItems leads (o :: (.function name idArrayBuild numArgs, none) :: stack) =
        o :: (.function name idArrayBuild (numArgs + leads.length), none) :: stack
  | [], _, _ => rfl
  | leads :: rest, numArgs, h => by
    rw [h leads mem_cons_self]
    show countItems rest (o :: (.function name idArrayBuild (numArgs + 1), none) :: stack) = _
    rw [countItems_array name o stack rest (numArgs + 1) fun b hb => h b (mem_cons_of_mem _ hb), length_cons,
      Nat.add_right_comm, Nat.add_assoc]

theorem feed_arguments (paren : Bool) {opening closing : Token L} {t t' : Operator L} {leads : List Bool}
    {output : List (ExpressionItem L)} {stack : List (Operator L)} {count : ℤ} {counts : List ℤ} {p : Parser L}
    (hopening : opening = if paren then .openParen else .openBracket)
    (hclosing : ∀ p : Parser L, p.step closing = p.close paren) (h : ReadsAll tokens code leads)
    (hcount : countItems leads ((opening, none) :: t :: stack) = (opening, none) :: t' :: stack)
    (hend : ∀ last, callEnd ⟨output ++ code, t' :: stack, (count + leads.length) :: counts, last⟩ = .ok p) :
    feed ⟨output, (opening, none) :: t :: stack, count :: counts, false⟩ (tokens ++ [closing]) = .ok p := by
  have ho : IsOpen (opening, none) := by
    rw [hopening]
    cases paren with
    | true => exact .inl rfl
    | false => exact .inr rfl
  obtain ⟨output', pend, last, hfeed, hpend, hflush⟩ := h output (opening, none) (t :: stack) count counts ho
  rw [hcount] at hfeed
  rw [feed_append hfeed]
  refine feed_cons ?_ []
  rw [hclosing]
  unfold close
  rw [popClosed_pending paren hpend, hflush, hopening]
  cases paren with
  | true => exact hend last
  | false => exact hend last

theorem Reads.call {token : Token L} {item : ExpressionItem L} {leads : List Bool}
    (hstep : ∀ p : Parser L, p.step token = .ok (p.call token)) (h : ReadsAll tokens code leads)
    (hcount : ∀ stack, countItems leads ((.openParen, none) :: (token, none) :: stack) =
      (.openParen, none) :: (token, none) :: stack)
    (hend : ∀ output stack counts last,
      Parser.callEnd ⟨output, (token, none) :: stack, (leads.length : ℤ) :: counts, last⟩ =
        .ok ⟨output ++ [item], stack, counts, true⟩) :
    Reads 9 (token :: .openParen :: (tokens ++ [.closeParen])) (code ++ [item]) true true := by
  intro output stack counts _
  refine ⟨output ++ (code ++ [item]), [], ?_, fun o ho => (not_mem_nil ho).elim, rfl⟩
  rw [feed_cons (hstep _), Parser.call, incArgCount_eq]
  refine feed_arguments true rfl (fun _ => rfl) h (hcount _) fun last => ?_
  rw [Int.zero_add, hend, append_assoc]
  rfl

section

variable (output : List (ExpressionItem L))

theorem openBracket_array (stack : List (Operator L)) (counts : List ℤ) :
    (⟨output, stack, counts, false⟩ : Parser L).openBracket =
      ⟨output, (.openBracket, none) :: (.function "array" idArrayBuild 0, none) :: counted true counts stack,
        0 :: incCounts counts, false⟩ := by
  unfold openBracket
  rw [incArgCount_eq]
  rfl

theorem openBracket_access (stack : List (Operator L)) (counts : List ℤ) :
    (⟨output, stack, counts, true⟩ : Parser L).openBracket =
      ⟨output, (.openBracket, none) :: (.function "array" idArrayAccess 2, none) :: stack, 1 :: counts, false⟩ := rfl

theorem callEnd_array (numArgs : ℕ) (stack : List (Operator L)) (counts : List ℤ)
    (last : Bool) :
    callEnd ⟨output, (.function "array" idArrayBuild numArgs, none) :: stack, (numArgs : ℤ) :: counts, last⟩ =
      .ok ⟨output ++ [.arrayBuild numArgs], stack, counts, true⟩ := by
  simp [callEnd, idArrayBuild, idArrayAccess]

theorem callEnd_access (stack : List (Operator L)) (counts : List ℤ) (last : Bool) :
    callEnd ⟨output, (.function "array" idArrayAccess 2, none) :: stack, 2 :: counts, last⟩ =
      .ok ⟨output ++ [.arrayAccess], stack, counts, true⟩ := by
  simp [callEnd]

theorem callEnd_function (name : String) {id : ℕ} (hid : id < idArrayBuild)
    (numArgs : ℕ) (stack : List (Operator L)) (counts : List ℤ) (last : Bool) :
    callEnd ⟨output, (.function name id numArgs, none) :: stack, (numArgs : ℤ) :: counts, last⟩ =
      .ok ⟨output ++ [.function id numArgs], stack, counts, true⟩ := by
  have haccess : id ≠ idArrayAccess := Nat.ne_of_lt (hid.trans (by decide))
  simp [callEnd, haccess, Nat.ne_of_lt hid]

end

theorem Reads.array {leads : List Bool} (h : ReadsAll tokens code leads) (hleads : ∀ b ∈ leads, b = true) :
    Reads 9 (.openBracket :: (tokens ++ [.closeBracket])) (code ++ [.arrayBuild leads.length]) true true := by
  intro output stack counts _
  refine ⟨output ++ (code ++ [.arrayBuild leads.length]), [], ?_, fun o ho => (not_mem_nil ho).elim, rfl⟩
  rw [feed_cons rfl, openBracket_array]
  refine feed_arguments false rfl (fun _ => rfl) h (countItems_array "array" _ _ leads 0 hleads) fun last => ?_
  rw [Int.zero_add, Nat.zero_add, callEnd_array, append_assoc]
  rfl

theorem Reads.alone (h : Reads level tokens code leads ends) : ReadsAll tokens code [leads] := by
  have hall := ReadsAll.cons h ReadsMore.nil
  rwa [append_nil, append_nil] at hall

theorem Reads.access {baseTokens : List (Token L)} {baseCode : List (ExpressionItem L)} {baseLeads : Bool}
    (hbase : Reads 9 baseTokens baseCode baseLeads true) (hindex : Reads level tokens code leads ends) :
    Reads 9 (baseTokens ++ .openBracket :: (tokens ++ [.closeBracket])) (baseCode ++ code ++ [.arrayAccess]) baseLeads
      true := by
  intro output stack counts hstack
  obtain ⟨output', pend, hfeed, hpend, hflush⟩ := hbase output stack counts hstack
  obtain rfl := hpend.eq_nil
  obtain rfl : output' = output ++ baseCode := hflush
  refine ⟨output ++ (baseCode ++ code ++ [.arrayAccess]), [], ?_, fun o ho => (not_mem_nil ho).elim, rfl⟩
  rw [feed_append hfeed, feed_cons rfl]
  have hindexed : Operator.addItem ((.function "array" idArrayAccess 2, none) : Operator L) = _ :=
    addItem_function "array" (by decide) 2
  rw [openBracket_access]
  refine feed_arguments false rfl (fun _ => rfl) hindex.alone (countItems_same hindexed _) fun last => ?_
  show callEnd ⟨_, _, 2 :: incCounts counts, last⟩ = _
  rw [callEnd_access]
  simp [append_assoc]

end

/-! ## Trees -/

namespace Tree

theorem parse_tokens_of_reads {level : ℕ} {tokens : List (Token L)} {code : List (ExpressionItem L)} {leads ends : Bool}
    (h : Reads level tokens code leads ends) : parse tokens = .ok code := by
  obtain ⟨output, pend, hfeed, hpend, hflush⟩ := h [] [] [] trivial
  have hstack : counted leads [] ([] : List (Operator L)) = [] := by
    unfold counted
    split_ifs <;> rfl
  rw [hstack, append_nil] at hfeed
  unfold parse
  rw [show tokens.foldlM step new = _ from hfeed]
  show popAll pend output = _
  rw [popAll_pending hpend, hflush]
  rfl

mutual

theorem reads : ∀ {e : Tree L}, e.WellFormed → e.Parsable → Reads e.level e.tokens e.code e.leads e.endsVar
  | .var v, _, _ => by
    rw [tokens, code]
    exact Reads.operand fun _ => rfl
  | .global name, _, _ => by
    rw [tokens, code]
    exact Reads.operand fun _ => rfl
  | .capture n, _, _ => by
    rw [tokens, code]
    exact Reads.operand fun _ => rfl
  | .constant c, _, _ => by
    rw [tokens, code]
    exact Reads.operand fun _ => rfl
  | .system s, _, _ => by
    rw [tokens, code]
    show Reads 9 _ ([] ++ [.system s]) true true
    exact Reads.call (fun _ => rfl) ReadsAll.nil (fun _ => rfl) fun _ _ _ _ => rfl
  | .unary op e, hwf, hparse => by
    rw [WellFormed] at hwf
    rw [Parsable] at hparse
    rw [tokens, code]
    exact (reads hwf.2 hparse).unary op hwf.1
  | .binary op left right, hwf, hparse => by
    rw [WellFormed] at hwf
    rw [Parsable] at hparse
    rw [tokens, code]
    exact Reads.binary hwf.1.1 hwf.2.1 (reads hwf.1.2 hparse.1) (reads hwf.2.2 hparse.2)
  | .call name id args, hwf, hparse => by
    rw [WellFormed] at hwf
    rw [Parsable] at hparse
    rw [tokens, code, ← length_map leads]
    refine Reads.call (fun _ => rfl) (readsAll hwf.2 hparse) (fun _ => countItems_same ?_ _) fun _ _ _ _ => ?_
    · exact addItem_function name (Nat.ne_of_lt hwf.1) _
    · exact callEnd_function _ name hwf.1 _ _ _ _
  | .regex r e, hwf, hparse => by
    rw [WellFormed] at hwf
    rw [Parsable] at hparse
    rw [tokens, code]
    exact Reads.call (fun _ => rfl) (reads hwf hparse).alone (fun _ => countItems_same rfl _) fun _ _ _ _ => rfl
  | .access base index, hwf, hparse => by
    rw [WellFormed] at hwf
    rw [Parsable] at hparse
    rw [tokens, code]
    have hbase := reads hwf.1.2 hparse.2.1
    rw [hwf.1.1, hparse.1] at hbase
    exact hbase.access (reads hwf.2 hparse.2.2)
  | .array items, hwf, hparse => by
    rw [WellFormed] at hwf
    rw [Parsable] at hparse
    rw [tokens, code, ← length_map leads]
    exact Reads.array (readsAll hwf hparse.2) (forall_mem_map.mpr hparse.1)
  | .paren e, hwf, hparse => by
    rw [WellFormed] at hwf
    rw [Parsable] at hparse
    rw [tokens, code]
    exact (reads hwf hparse).paren

theorem readsAll : ∀ {es : List (Tree L)}, AllWellFormed es → AllParsable es →
    ReadsAll (listTokens es) (listCode es) (es.map leads)
  | [], _, _ => ReadsAll.nil
  | e :: es, hwf, hparse => by
    rw [AllWellFormed] at hwf
    rw [AllParsable] at hparse
    exact ReadsAll.cons (reads hwf.1 hparse.1) (readsMore hwf.2 hparse.2)

theorem readsMore : ∀ {es : List (Tree L)}, AllWellFormed es → AllParsable es →
    ReadsMore (moreTokens es) (listCode es) (es.map leads)
  | [], _, _ => ReadsMore.nil
  | e :: es, hwf, hparse => by
    rw [AllWellFormed] at hwf
    rw [AllParsable] at hparse
    exact ReadsMore.cons (ReadsAll.cons (reads hwf.1 hparse.1) (readsMore hwf.2 hparse.2))

end

theorem parse_tokens {e : Tree L} (hwf : e.WellFormed) (hparse : e.Parsable) : parse e.tokens = .ok e.code :=
  parse_tokens_of_reads (reads hwf hparse)

end Tree

end MailServer.Common.Expr
