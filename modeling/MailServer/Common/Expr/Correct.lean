import MailServer.Common.Expr.Eval
import MailServer.Common.Expr.Parses

/-!
# Parsed expressions have the value of their trees

A jump over the right side of `&&` or `||` skips the operator as well, and leaves the left value where the operator would
have left a truth value.

* `Same`: the trees in which that makes no difference.
* `value_eq_left`: their programs compute their values.
* `eval_parse_tokens`: and so does what the parser makes of their tokens.
-/

namespace MailServer.Common.Expr

open Variable

namespace EvalContext

variable {L : Language} {W E : Type} (c : EvalContext L W E)

/-- Where the value of the tree has a truth value, it is the number for it. -/
def Means (b : Bool) (e : Tree L) : Prop :=
  ∀ t v t', c.value e t = .ok (v, t') → v.toBool c.prims = b → v = .ofBool b

/-- The same of what its program computes: `&&` may leave its left side only where that is false, and `||` where it is
true. -/
def Settled (b : Bool) : Tree L → Prop
  | .paren e => Settled b e
  | .binary op left right =>
    match op.jumpsIf with
    | some val => b ≠ val ∨ Settled b left
    | none => c.Means b (.binary op left right)
  | e => c.Means b e

mutual

/-- The program computes the value, or, if only that is needed, one with the same truth value. -/
def Same (exact : Bool) : Tree L → Prop
  | .unary .not e => Same false e
  | .unary .minus e | .regex _ e => Same true e
  | .binary op left right =>
    match op.jumpsIf with
    | some val => Same false left ∧ Same false right ∧ (exact = true → c.Settled val left)
    | none => if op = .xor then Same false left ∧ Same false right else Same true left ∧ Same true right
  | .call _ _ args => AllSame args
  | .access base index => Same true base ∧ Same true index
  | .array items => AllSame items
  | .paren e => Same exact e
  | _ => True

def AllSame : List (Tree L) → Prop
  | [] => True
  | e :: es => Same true e ∧ AllSame es

end

/-- Results that are the same, or, if only that is needed, have the same truth value. -/
def Agree (exact : Bool) : Except E (Variable L × EvalState W) → Except E (Variable L × EvalState W) → Prop
  | .error e, .error e' => e = e'
  | .ok r, .ok r' => r.2 = r'.2 ∧ r.1.toBool c.prims = r'.1.toBool c.prims ∧ (exact = true → r.1 = r'.1)
  | _, _ => False

variable {c}

theorem Agree.refl (exact : Bool) (x : Except E (Variable L × EvalState W)) : c.Agree exact x x := by
  cases x with
  | error e => rfl
  | ok r => exact ⟨rfl, rfl, fun _ => rfl⟩

theorem Agree.eq {x y : Except E (Variable L × EvalState W)} (h : c.Agree true x y) : x = y := by
  cases x with
  | error e =>
    cases y with
    | error e' => exact congrArg _ h
    | ok r' => exact h.elim
  | ok r =>
    cases y with
    | error e' => exact h.elim
    | ok r' => exact congrArg _ (Prod.ext (h.2.2 rfl) h.1)

theorem Agree.bind {exact exact' : Bool} {x y : Except E (Variable L × EvalState W)}
    {f g : Variable L × EvalState W → Except E (Variable L × EvalState W)} (h : c.Agree exact' x y)
    (hfg : ∀ v w t, x = .ok (v, t) → v.toBool c.prims = w.toBool c.prims → (exact' = true → v = w) →
      c.Agree exact (f (v, t)) (g (w, t))) :
    c.Agree exact (x.bind f) (y.bind g) := by
  cases x with
  | error e =>
    cases y with
    | error e' => exact h
    | ok r' => exact h.elim
  | ok r =>
    cases y with
    | error e' => exact h.elim
    | ok r' =>
      obtain ⟨v, t⟩ := r
      obtain ⟨w, t'⟩ := r'
      obtain ⟨rfl, hbool, heq⟩ := h
      exact hfg v w t rfl hbool heq

variable {op : BinaryOperator} {v : Variable L}

theorem binary_decided (h : c.decides op v = true) (w : Variable L) :
    binary c.prims op v w = .ofBool (v.toBool c.prims) := by
  have hjump := of_decide_eq_true h
  cases op with
  | and =>
    have hfalse : v.toBool c.prims = false := (Option.some.inj hjump).symm
    simp [binary, opAnd, hfalse]
  | or =>
    have htrue : v.toBool c.prims = true := (Option.some.inj hjump).symm
    simp [binary, opOr, htrue]
  | _ => cases hjump

theorem binary_jumps {val : Bool} (h : op.jumpsIf = some val) {v' w w' : Variable L}
    (hv : v.toBool c.prims = v'.toBool c.prims) (hw : w.toBool c.prims = w'.toBool c.prims) :
    binary c.prims op v w = binary c.prims op v' w' ∧
      binary c.prims op v w = .ofBool ((binary c.prims op v w).toBool c.prims) := by
  cases op with
  | and =>
    simp [binary, opAnd, hv, hw, toBool_ofBool]
  | or =>
    simp [binary, opOr, hv, hw, toBool_ofBool]
  | _ => cases h

/-! ## Trees -/

variable (c) in
/-- What is proved of a tree. -/
def Spec (e : Tree L) : Prop :=
  (∀ exact, c.Same exact e → ∀ t, c.Agree exact (c.left e t) (c.value e t)) ∧
    ∀ b, c.Same false e → c.Settled b e → ∀ t v t', c.left e t = .ok (v, t') → v.toBool c.prims = b → v = .ofBool b

theorem Spec.exact {e : Tree L} (hsame : ∀ exact, c.Same exact e → c.Same true e)
    (hsettled : ∀ b, c.Settled b e → c.Means b e) (h : c.Same true e → ∀ t, c.left e t = c.value e t) : c.Spec e := by
  constructor
  · intro exact he t
    rw [h (hsame exact he) t]
    exact Agree.refl exact _
  · intro b he hb t v t' hleft
    rw [h (hsame false he) t] at hleft
    exact hsettled b hb t v t' hleft

theorem Spec.jumps {val : Bool} (hjump : op.jumpsIf = some val) {left right : Tree L}
    (hleft : c.Spec left) (hright : c.Spec right) : c.Spec (.binary op left right) := by
  have hsame : ∀ exact, c.Same exact (.binary op left right) ↔
      c.Same false left ∧ c.Same false right ∧ (exact = true → c.Settled val left) := by
    intro exact
    rw [Same, hjump]
  have hval : ∀ {v : Variable L}, c.decides op v = true → v.toBool c.prims = val := by
    intro v hdecides
    exact (Option.some.inj (hjump.symm.trans (of_decide_eq_true hdecides))).symm
  constructor
  · intro exact he t
    obtain ⟨hl, hr, hexact⟩ := (hsame exact).mp he
    refine Agree.bind (hleft.1 false hl t) fun v w t' hrun hbool _ => ?_
    have hdecides : c.decides op v = c.decides op w := by rw [decides, decides, hbool]
    show c.Agree exact (if c.decides op v then .ok (v, t') else (c.left right t').bind _)
      (if c.decides op w then .ok (binary c.prims op w .default, t') else (c.value right t').bind _)
    rw [← hdecides]
    split_ifs with hdec
    · rw [binary_decided (hdecides.symm.trans hdec), ← hbool]
      refine ⟨rfl, (toBool_ofBool _ _).symm, fun hx => ?_⟩
      rw [hval hdec]
      exact hleft.2 val hl (hexact hx) t v t' hrun (hval hdec)
    · refine Agree.bind (hright.1 false hr t') fun v' w' t'' _ hbool' _ => ?_
      rw [(binary_jumps hjump hbool hbool').1]
      exact Agree.refl exact (.ok (_, t''))
  · intro b he hb t v t' hrun hv
    obtain ⟨hl, hr, -⟩ := (hsame false).mp he
    have hb' : b ≠ val ∨ c.Settled b left := by rwa [Settled, hjump] at hb
    change (c.left left t).bind _ = _ at hrun
    cases hlrun : c.left left t with
    | error err =>
      rw [hlrun] at hrun
      cases hrun
    | ok r =>
      rw [hlrun] at hrun
      change (if c.decides op r.1 then Except.ok (r.1, r.2) else (c.left right r.2).bind _) = _ at hrun
      split_ifs at hrun with hdec
      · obtain ⟨rfl, rfl⟩ := Prod.mk.inj (Except.ok.inj hrun)
        have hsettled := hb'.resolve_left fun hne => hne (hv.symm.trans (hval hdec))
        exact hleft.2 b hl hsettled t r.1 r.2 hlrun hv
      · cases hrrun : c.left right r.2 with
        | error err =>
          rw [hrrun] at hrun
          cases hrun
        | ok r' =>
          rw [hrrun] at hrun
          obtain ⟨rfl, rfl⟩ := Prod.mk.inj (Except.ok.inj hrun)
          rw [← hv]
          exact (binary_jumps hjump rfl rfl).2

theorem left_binary_none (hjump : op.jumpsIf = none) {left right : Tree L} (hleft : c.Spec left)
    (hright : c.Spec right) (h : c.Same true (.binary op left right)) (t : EvalState W) :
    c.left (.binary op left right) t = c.value (.binary op left right) t := by
  have hnever : ∀ v : Variable L, c.decides op v = false := fun v => by
    rw [decides, hjump]
    rfl
  rw [Same, hjump] at h
  refine Agree.eq (c := c) ?_
  by_cases hxor : op = .xor
  · subst hxor
    obtain ⟨hl, hr⟩ := h
    refine Agree.bind (hleft.1 false hl t) fun v w t' _ hbool _ => ?_
    refine Agree.bind (hright.1 false hr t') fun v' w' t'' _ hbool' _ => ?_
    have hvalue : opXor c.prims v v' = opXor c.prims w w' := by
      rw [opXor, opXor, hbool, hbool']
    exact ⟨rfl, congrArg _ hvalue, fun _ => hvalue⟩
  · obtain ⟨hl, hr⟩ := (if_neg hxor).mp h
    refine Agree.bind (hleft.1 true hl t) fun v w t' _ _ heq => ?_
    obtain rfl := heq rfl
    simp only [hnever]
    refine Agree.bind (hright.1 true hr t') fun v' w' t'' _ _ heq' => ?_
    obtain rfl := heq' rfl
    exact Agree.refl true (.ok (_, t''))

mutual

theorem spec : ∀ e : Tree L, c.Spec e
  | .var _ | .global _ | .capture _ | .constant _ | .system _ =>
    .exact (fun _ h => h) (fun _ h => h) fun _ _ => rfl
  | .unary .not e => by
    refine .exact (fun _ h => h) (fun _ h => h) fun h t => Agree.eq (c := c) ?_
    rw [Same] at h
    refine Agree.bind ((spec e).1 false h t) fun v w t' _ hbool _ => ?_
    have hvalue : opNot c.prims v = opNot c.prims w := by
      rw [opNot, opNot, hbool]
    exact ⟨rfl, congrArg _ hvalue, fun _ => hvalue⟩
  | .unary .minus e => by
    refine .exact (fun _ h => h) (fun _ h => h) fun h t => ?_
    rw [Same] at h
    show (c.left e t).bind _ = (c.value e t).bind _
    rw [((spec e).1 true h t).eq]
  | .regex r e => by
    refine .exact (fun _ h => h) (fun _ h => h) fun h t => ?_
    rw [Same] at h
    show (c.left e t).bind _ = (c.value e t).bind _
    rw [((spec e).1 true h t).eq]
  | .binary op left right => by
    cases hjump : op.jumpsIf with
    | some val => exact .jumps hjump (spec left) (spec right)
    | none =>
      refine .exact (fun _ h => ?_) (fun b h => ?_) (left_binary_none hjump (spec left) (spec right))
      · rw [Same, hjump] at h ⊢
        exact h
      · rwa [Settled, hjump] at h
  | .call name id args => by
    refine .exact (fun _ h => h) (fun _ h => h) fun h t => ?_
    rw [Same] at h
    show (c.evalTrees (fun _ v => v) args t).bind _ = _
    rw [spec_list args h t]
    rfl
  | .access base index => by
    refine .exact (fun _ h => h) (fun _ h => h) fun h t => Agree.eq (c := c) ?_
    rw [Same] at h
    refine Agree.bind ((spec base).1 true h.1 t) fun v w t' _ _ heq => ?_
    obtain rfl := heq rfl
    refine Agree.bind ((spec index).1 true h.2 t') fun v' w' t'' _ _ heq' => ?_
    obtain rfl := heq' rfl
    exact Agree.refl true (.ok (_, t''))
  | .array items => by
    refine .exact (fun _ h => h) (fun _ h => h) fun h t => ?_
    rw [Same] at h
    show (c.evalTrees (fun _ v => v) items t).bind _ = _
    rw [spec_list items h t]
    rfl
  | .paren e => by
    refine ⟨fun exact h t => ?_, fun b h hb t v t' => ?_⟩
    · rw [Same] at h
      exact (spec e).1 exact h t
    · rw [Same] at h
      rw [Settled] at hb
      exact (spec e).2 b h hb t v t'

theorem spec_list : ∀ es : List (Tree L), c.AllSame es → ∀ t,
    c.evalTrees (fun _ v => v) es t = c.evalTrees (fun op v => binary c.prims op v .default) es t
  | [], _, _ => rfl
  | e :: es, h, t => by
    rw [AllSame] at h
    have hhead : c.left e t = c.value e t := ((spec e).1 true h.1 t).eq
    rw [evalTrees, evalTrees]
    change (c.left e t).bind _ = (c.value e t).bind _
    rw [hhead]
    refine congrArg _ (funext fun v => ?_)
    rw [spec_list es h.2 v.2]

end

theorem value_eq_left {e : Tree L} (h : c.Same true e) (t : EvalState W) : c.left e t = c.value e t :=
  ((spec e).1 true h t).eq

theorem means_binary (hjump : op.jumpsIf = none)
    (h : ∀ v w : Variable L, ∃ b, binary c.prims op v w = .ofBool b) (b : Bool)
    (left right : Tree L) : c.Means b (.binary op left right) := by
  intro t v t' hrun hv
  have hnever : ∀ v : Variable L, c.decides op v = false := fun v => by
    rw [decides, hjump]
    rfl
  change (c.value left t).bind _ = _ at hrun
  cases hl : c.value left t with
  | error err =>
    rw [hl] at hrun
    cases hrun
  | ok r =>
    rw [hl] at hrun
    simp only [hnever] at hrun
    change (c.value right r.2).bind _ = _ at hrun
    cases hr : c.value right r.2 with
    | error err =>
      rw [hr] at hrun
      cases hrun
    | ok r' =>
      rw [hr] at hrun
      obtain ⟨rfl, -⟩ := Prod.mk.inj (Except.ok.inj hrun)
      obtain ⟨b', hb'⟩ := h r.1 r'.1
      rw [hb', toBool_ofBool] at hv
      rw [hb', hv]

theorem means_eq (b : Bool) (left right : Tree L) : c.Means b (.binary .eq left right) :=
  means_binary rfl (fun v w => ⟨v.eq c.prims w, rfl⟩) b left right

/-! ## Programs -/

theorem eval_code (e : Tree L) (t : EvalState W) : c.eval e.code t = c.left e t := by
  rw [eval, (computes_code e).exec]
  cases c.left e t <;> rfl

/-- Names for variables, and nothing else. -/
def names : Language := ⟨String, Empty, Empty, Empty, Float⟩

def floats : Prims names where
  ofInt := Float.ofInt
  add := Float.add
  sub := Float.sub
  mul := Float.mul
  div := Float.div
  neg := Float.neg
  zero := (0 : Float)
  eq := Float.beq
  cmp := fun (a b : Float) =>
    if a < b then some .lt else if a > b then some .gt else if Float.beq a b then some .eq else none
  toUsize := fun f => (Float.toUInt64 f).toNat
  display := Float.toString
  parseInt := String.toInt?
  parseUsize := String.toNat?
  parseFloat := fun s => s.toInt?.map Float.ofInt
  asStr := Empty.elim
  toId := Empty.elim

/-- All variables are 1. -/
def ones : EvalContext names Unit Unit where
  prims := floats
  resolveVariable := fun _ => .integer 1
  resolveGlobal := fun _ => .default
  system := fun s _ => s.elim
  function := fun _ _ _ => .error ()
  captures := fun r _ => r.elim

/-- `[a == 1 || b == 2, c + 1][0]` -/
def chosen : Tree names :=
  .access
    (.array
      [.binary .or (.binary .eq (.var "a") (.constant (.integer 1))) (.binary .eq (.var "b") (.constant (.integer 2))),
        .binary .add (.var "c") (.constant (.integer 1))])
    (.constant (.integer 0))

/-- `"abc" || a` -/
def fallback : Tree names := .binary .or (.constant (.string "abc")) (.var "a")

/-- `[!a]` -/
def negated : Tree names := .array [.unary .not (.var "a")]

end EvalContext

end MailServer.Common.Expr
