import MailServer.Common.Expr.Tree
import MailServer.Lib.Postfix
import Mathlib.Data.List.Induction

/-!
# Evaluation of expressions (`common/src/expr/eval.rs`)

* `EvalContext.evalItem`, `EvalContext.eval`: the evaluation of a program with a stack.
* `EvalContext.computes_code`: what the program of a tree computes.
-/

namespace MailServer.Common.Expr

open MailServer.Lib.Postfix List Computes

/-- What an evaluation takes from outside: variables, functions, which may change the world and fail, and regular
expressions. -/
structure EvalContext (L : Language) (W E : Type) where
  prims : Prims L
  resolveVariable : L.Var → Variable L
  resolveGlobal : String → Variable L
  system : L.Sys → W → Variable L
  function : ℕ → List (Variable L) → W → Except E (Variable L × W)
  captures : L.Rgx → String → Option (List (Option String))

/-- The captures of the last regular expression, and the world. -/
structure EvalState (W : Type) where
  captures : List String
  world : W

variable {L : Language} {W E : Type}

/-- `stack.pop().unwrap_or_default()` -/
def pop : List (Variable L) → Variable L × List (Variable L)
  | [] => (.default, [])
  | v :: stack => (v, stack)

/-- The values on top of the stack, the topmost last. -/
def popMany : ℕ → List (Variable L) → List (Variable L) → List (Variable L) × List (Variable L)
  | 0, stack, values => (values, stack)
  | n + 1, stack, values => popMany n (pop stack).2 ((pop stack).1 :: values)

theorem popMany_reverse (values : List (Variable L)) : ∀ others stack,
    popMany values.length (values.reverse ++ stack) others = (values ++ others, stack) := by
  induction values using List.reverseRecOn with
  | nil => exact fun _ _ => rfl
  | append_singleton values v ih =>
    intro others stack
    rw [length_append, reverse_append, append_assoc, append_assoc]
    exact ih (v :: others) stack

namespace EvalContext

variable (c : EvalContext L W E)

/-- One item: the stack and the state after it, and how many items are skipped. -/
def evalItem : ExpressionItem L → List (Variable L) × EvalState W →
    Except E ((List (Variable L) × EvalState W) × ℕ)
  | .var v, (stack, t) => .ok ((c.resolveVariable v :: stack, t), 0)
  | .global name, (stack, t) => .ok ((c.resolveGlobal name :: stack, t), 0)
  | .constant k, (stack, t) => .ok ((.ofConstant k :: stack, t), 0)
  | .capture n, (stack, t) => .ok ((.string (t.captures[n]?.getD "") :: stack, t), 0)
  | .system s, (stack, t) => .ok ((c.system s t.world :: stack, t), 0)
  | .unaryOperator op, (stack, t) => .ok ((Variable.unary c.prims op (pop stack).1 :: (pop stack).2, t), 0)
  | .binaryOperator op, (stack, t) =>
    let (right, stack) := pop stack
    let (left, stack) := pop stack
    .ok ((Variable.binary c.prims op left right :: stack, t), 0)
  | .function id numArgs, (stack, t) =>
    let (arguments, stack) := popMany numArgs stack []
    (c.function id arguments t.world).bind fun (result, world) =>
      .ok ((result :: stack, { t with world }), 0)
  | .jmpIf val pos, (stack, t) =>
    let top := match stack with
      | [] => false
      | v :: _ => v.toBool c.prims
    .ok ((stack, t), if top = val then pos else 0)
  | .arrayAccess, (stack, t) =>
    let (index, stack) := pop stack
    let (array, stack) := pop stack
    .ok ((array.intoArray[(index.toUsize c.prims).getD 0]?.getD .default :: stack, t), 0)
  | .arrayBuild numItems, (stack, t) =>
    let (items, stack) := popMany numItems stack []
    .ok ((.array items :: stack, t), 0)
  | .regex r, (stack, t) =>
    let (value, stack) := pop stack
    let captures := ((c.captures r (value.intoString c.prims)).getD []).map fun capture => capture.getD ""
    .ok ((.ofBool (!captures.isEmpty) :: stack, { t with captures }), 0)

/-- The value that is on top in the end. -/
def eval (program : List (ExpressionItem L)) (t : EvalState W) : Except E (Variable L × EvalState W) :=
  (exec c.evalItem 0 program ([], t)).bind fun (stack, t) => .ok ((pop stack).1, t)

/-! ## Trees -/

/-- An array's item, or the empty string. -/
def item (base index : Variable L) : Variable L := base.intoArray[(index.toUsize c.prims).getD 0]?.getD .default

/-- A match and its captures. -/
def «match» (r : L.Rgx) (value : Variable L) (t : EvalState W) : Variable L × EvalState W :=
  let captures := ((c.captures r (value.intoString c.prims)).getD []).map fun capture => capture.getD ""
  (.ofBool (!captures.isEmpty), { t with captures })

def apply (id : ℕ) (arguments : List (Variable L)) (t : EvalState W) : Except E (Variable L × EvalState W) :=
  (c.function id arguments t.world).bind fun r => .ok (r.1, { t with world := r.2 })

/-- The left side of `&&` or `||` decides. -/
def decides (op : BinaryOperator) (v : Variable L) : Bool := op.jumpsIf = some (v.toBool c.prims)

mutual

/-- The evaluation of a tree, from left to right, given what a left side that decides becomes. -/
def evalTree (decided : BinaryOperator → Variable L → Variable L) :
    Tree L → EvalState W → Except E (Variable L × EvalState W)
  | .var v, t => .ok (c.resolveVariable v, t)
  | .global name, t => .ok (c.resolveGlobal name, t)
  | .capture n, t => .ok (.string (t.captures[n]?.getD ""), t)
  | .constant k, t => .ok (.ofConstant k, t)
  | .system s, t => .ok (c.system s t.world, t)
  | .unary op e, t => (evalTree decided e t).bind fun v => .ok (Variable.unary c.prims op v.1, v.2)
  | .binary op left right, t =>
    (evalTree decided left t).bind fun v =>
      if c.decides op v.1 then .ok (decided op v.1, v.2)
      else (evalTree decided right v.2).bind fun w => .ok (Variable.binary c.prims op v.1 w.1, w.2)
  | .call _ id args, t => (evalTrees decided args t).bind fun vs => c.apply id vs.1 vs.2
  | .regex r e, t => (evalTree decided e t).bind fun v => .ok (c.match r v.1 v.2)
  | .access base index, t =>
    (evalTree decided base t).bind fun v =>
      (evalTree decided index v.2).bind fun w => .ok (c.item v.1 w.1, w.2)
  | .array items, t => (evalTrees decided items t).bind fun vs => .ok (.array vs.1, vs.2)
  | .paren e, t => evalTree decided e t

def evalTrees (decided : BinaryOperator → Variable L → Variable L) :
    List (Tree L) → EvalState W → Except E (List (Variable L) × EvalState W)
  | [], t => .ok ([], t)
  | e :: es, t =>
    (evalTree decided e t).bind fun v =>
      (evalTrees decided es v.2).bind fun vs => .ok (v.1 :: vs.1, vs.2)

end

/-- The value of a tree.  For a left side that decides, the operator has the same result whatever the right side is. -/
def value (e : Tree L) (t : EvalState W) : Except E (Variable L × EvalState W) :=
  c.evalTree (fun op v => Variable.binary c.prims op v .default) e t

/-- What the program of a tree computes: a left side that decides stays as it is. -/
def left (e : Tree L) (t : EvalState W) : Except E (Variable L × EvalState W) := c.evalTree (fun _ v => v) e t

variable {c}

theorem evalItem_function (id numArgs : ℕ) (stack : List (Variable L)) (t : EvalState W) :
    c.evalItem (.function id numArgs) (stack, t) = (c.apply id (popMany numArgs stack []).1 t).bind fun r =>
      .ok ((r.1 :: (popMany numArgs stack []).2, r.2), 0) := by
  unfold apply
  simp only [evalItem]
  cases c.function id (popMany numArgs stack []).1 t.world <;> rfl

theorem length_evalTrees {decided : BinaryOperator → Variable L → Variable L} : ∀ {es : List (Tree L)} {t t' vs},
    c.evalTrees decided es t = .ok (vs, t') → vs.length = es.length
  | [], t, t', vs, h => by
    obtain ⟨rfl, -⟩ := Prod.mk.inj (Except.ok.inj h)
    rfl
  | e :: es, t, t', vs, h => by
    rw [evalTrees] at h
    cases hv : c.evalTree decided e t with
    | error err =>
      rw [hv] at h
      cases h
    | ok v =>
      rw [hv] at h
      change (c.evalTrees decided es v.2).bind _ = _ at h
      cases hvs : c.evalTrees decided es v.2 with
      | error err =>
        rw [hvs] at h
        cases h
      | ok vs' =>
        rw [hvs] at h
        obtain ⟨rfl, -⟩ := Prod.mk.inj (Except.ok.inj h)
        rw [length_cons, length_cons, length_evalTrees hvs]

mutual

theorem computes_code : ∀ e : Tree L, Computes c.evalItem e.code (c.left e)
  | .var v => by
    rw [Tree.code]
    exact single fun _ _ => rfl
  | .global name => by
    rw [Tree.code]
    exact single fun _ _ => rfl
  | .capture n => by
    rw [Tree.code]
    exact single fun _ _ => rfl
  | .constant k => by
    rw [Tree.code]
    exact single fun _ _ => rfl
  | .system s => by
    rw [Tree.code]
    exact single fun _ _ => rfl
  | .unary op e => by
    rw [Tree.code]
    exact unary (f := fun v t => .ok (Variable.unary c.prims op v, t)) (computes_code e) fun _ _ _ => rfl
  | .binary op left right => by
    rw [Tree.code]
    cases hjump : op.jumpsIf with
    | some val =>
      refine jump (computes_code left) (computes_code right) (fun v stack t => ?_) fun _ _ _ _ => rfl
      have hdecides : c.decides op v = decide (v.toBool c.prims = val) := by
        rw [decides, hjump]
        exact decide_eq_decide.mpr ⟨fun h => (Option.some.inj h).symm, fun h => congrArg some h.symm⟩
      rw [hdecides]
      simp only [decide_eq_true_eq]
      rfl
    | none =>
      have hcode := binary (f := Variable.binary c.prims op) (i := .binaryOperator op) (computes_code left)
        (computes_code right) fun _ _ _ _ => rfl
      have hnever : ∀ v : Variable L, c.decides op v = false := fun v => by
        rw [decides, hjump]
        rfl
      have hleft : c.left (.binary op left right) = fun t => (c.left left t).bind fun v =>
          (c.left right v.2).bind fun w => .ok (Variable.binary c.prims op v.1 w.1, w.2) := by
        funext t
        show (c.left left t).bind (fun v => if c.decides op v.1 then _ else _) = _
        simp only [hnever]
        rfl
      rw [hleft]
      exact hcode
  | .call name id args => by
    rw [Tree.code]
    refine gather (f := fun vs t => c.apply id vs t) (computesAll_code args) fun t vs t' hvs stack => ?_
    rw [← length_evalTrees hvs, evalItem_function, popMany_reverse, append_nil]
  | .regex r e => by
    rw [Tree.code]
    exact unary (f := fun v t => .ok (c.match r v t)) (computes_code e) fun _ _ _ => rfl
  | .access base index => by
    rw [Tree.code]
    exact (computes_code base).binary (computes_code index) fun _ _ _ _ => rfl
  | .array items => by
    rw [Tree.code]
    refine gather (f := fun vs t => .ok (.array vs, t)) (computesAll_code items) fun t vs t' hvs stack => ?_
    rw [← length_evalTrees hvs, evalItem, popMany_reverse, append_nil]
    rfl
  | .paren e => by
    rw [Tree.code]
    exact computes_code e

theorem computesAll_code : ∀ es : List (Tree L),
    ComputesAll c.evalItem (Tree.listCode es) (c.evalTrees (fun _ v => v) es)
  | [] => nil
  | e :: es => ComputesAll.cons (computes_code e) (computesAll_code es)

end

end EvalContext

end MailServer.Common.Expr
