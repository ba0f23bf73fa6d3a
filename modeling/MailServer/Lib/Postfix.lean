import Mathlib.Tactic.Common

/-!
# Postfix programs with jumps forward

An instruction changes a stack and a state, and says how many of the instructions after it are skipped.

* `Computes`, `ComputesAll`: what a piece of a program leaves on the stack, whatever is there and whatever follows.
* `Computes.jump`: a part that is skipped where the value before it decides.
-/

namespace MailServer.Lib.Postfix

open List

variable {I V T E : Type} {step : I → List V × T → Except E ((List V × T) × ℕ)}

/-- The run of a program of which the first instructions are skipped. -/
def exec (step : I → List V × T → Except E ((List V × T) × ℕ)) : ℕ → List I → List V × T → Except E (List V × T)
  | _, [], s => .ok s
  | skip + 1, _ :: code, s => exec step skip code s
  | 0, i :: code, s => (step i s).bind fun next => exec step next.2 code next.1

theorem exec_skip (skipped rest : List I) (s : List V × T) :
    exec step skipped.length (skipped ++ rest) s = exec step 0 rest s := by
  induction skipped with
  | nil => rfl
  | cons i skipped ih => exact ih

variable {i : I} {value : T → Except E (V × T)} {code : List I} {f : V → V → V}
  {values : T → Except E (List V × T)}

theorem exec_cons {s next : List V × T} {skip : ℕ} (h : step i s = .ok (next, skip))
    (rest : List I) : exec step 0 (i :: rest) s = exec step skip rest next := by
  show (step i s).bind _ = _
  rw [h]
  rfl

/-- The piece pushes the value of a computation. -/
def Computes (step : I → List V × T → Except E ((List V × T) × ℕ)) (code : List I) (value : T → Except E (V × T)) : Prop :=
  ∀ rest stack t, exec step 0 (code ++ rest) (stack, t) =
    (value t).bind fun r => exec step 0 rest (r.1 :: stack, r.2)

/-- The piece pushes the values of a computation, the last one on top. -/
def ComputesAll (step : I → List V × T → Except E ((List V × T) × ℕ)) (code : List I)
    (values : T → Except E (List V × T)) : Prop :=
  ∀ rest stack t, exec step 0 (code ++ rest) (stack, t) =
    (values t).bind fun r => exec step 0 rest (r.1.reverse ++ stack, r.2)

theorem bind_bind {A B C : Type} (x : Except E A) (f : A → Except E B) (g : B → Except E C) :
    (x.bind f).bind g = x.bind fun a => (f a).bind g := by
  cases x <;> rfl

theorem Computes.nil : ComputesAll step [] fun t => .ok ([], t) := fun _ _ _ => rfl

theorem Computes.single
    (h : ∀ stack t, step i (stack, t) = (value t).bind fun r => .ok ((r.1 :: stack, r.2), 0)) :
    Computes step [i] value := by
  intro rest stack t
  show (step i (stack, t)).bind _ = _
  rw [h, bind_bind]
  rfl

/-- An instruction that replaces the value on top. -/
theorem Computes.unary {f : V → T → Except E (V × T)} (hcode : Computes step code value)
    (h : ∀ v stack t, step i (v :: stack, t) = (f v t).bind fun r => .ok ((r.1 :: stack, r.2), 0)) :
    Computes step (code ++ [i]) fun t => (value t).bind fun r => f r.1 r.2 := by
  intro rest stack t
  rw [append_assoc, hcode, bind_bind]
  refine congrArg _ (funext fun r => ?_)
  show (step i (r.1 :: stack, r.2)).bind _ = _
  rw [h, bind_bind]
  rfl

/-- An instruction that replaces the two values on top. -/
theorem Computes.binary {left right : List I} {l r : T → Except E (V × T)}
    (hleft : Computes step left l) (hright : Computes step right r)
    (h : ∀ v w stack t, step i (w :: v :: stack, t) = .ok ((f v w :: stack, t), 0)) :
    Computes step (left ++ right ++ [i]) fun t =>
      (l t).bind fun v => (r v.2).bind fun w => .ok (f v.1 w.1, w.2) := by
  intro rest stack t
  rw [append_assoc, append_assoc, hleft, bind_bind]
  refine congrArg _ (funext fun v => ?_)
  rw [hright, bind_bind]
  refine congrArg _ (funext fun w => ?_)
  rw [singleton_append, exec_cons (h v.1 w.1 stack w.2)]
  rfl

/-- A binary operator whose right side is skipped, and itself, where the left side decides. -/
theorem Computes.jump {left right : List I} {jmp : I} {l r : T → Except E (V × T)}
    {decides : V → Bool} (hleft : Computes step left l) (hright : Computes step right r)
    (hjmp : ∀ v stack t, step jmp (v :: stack, t) =
      .ok ((v :: stack, t), if decides v then right.length + 1 else 0))
    (h : ∀ v w stack t, step i (w :: v :: stack, t) = .ok ((f v w :: stack, t), 0)) :
    Computes step (left ++ [jmp] ++ right ++ [i]) fun t =>
      (l t).bind fun v =>
        if decides v.1 then .ok v else (r v.2).bind fun w => .ok (f v.1 w.1, w.2) := by
  intro rest stack t
  rw [append_assoc, append_assoc, append_assoc, hleft, bind_bind]
  refine congrArg _ (funext fun v => ?_)
  rw [singleton_append, exec_cons (hjmp v.1 stack v.2)]
  split_ifs with hdecides
  · have hlen : (right ++ [i]).length = right.length + 1 := length_append
    rw [← hlen, ← append_assoc, exec_skip]
    rfl
  · rw [hright, bind_bind]
    refine congrArg _ (funext fun w => ?_)
    rw [singleton_append, exec_cons (h v.1 w.1 stack w.2)]
    rfl

theorem ComputesAll.cons {others : List I} (hcode : Computes step code value)
    (hothers : ComputesAll step others values) :
    ComputesAll step (code ++ others) fun t =>
      (value t).bind fun v => (values v.2).bind fun vs => .ok (v.1 :: vs.1, vs.2) := by
  intro rest stack t
  rw [append_assoc, hcode, bind_bind]
  refine congrArg _ (funext fun v => ?_)
  rw [hothers, bind_bind]
  refine congrArg _ (funext fun vs => ?_)
  show _ = exec step 0 rest ((v.1 :: vs.1).reverse ++ stack, vs.2)
  rw [reverse_cons, append_assoc]
  rfl

/-- An instruction that replaces the values on top, which are as many as it takes. -/
theorem Computes.gather {f : List V → T → Except E (V × T)} (hcode : ComputesAll step code values)
    (h : ∀ t vs t', values t = .ok (vs, t') → ∀ stack, step i (vs.reverse ++ stack, t') =
      (f vs t').bind fun r => .ok ((r.1 :: stack, r.2), 0)) :
    Computes step (code ++ [i]) fun t => (values t).bind fun vs => f vs.1 vs.2 := by
  intro rest stack t
  rw [append_assoc, hcode, bind_bind]
  cases hvalues : values t with
  | error e => rfl
  | ok vs =>
    show (step i (vs.1.reverse ++ stack, vs.2)).bind _ = (f vs.1 vs.2).bind _
    rw [h t vs.1 vs.2 hvalues, bind_bind]
    rfl

/-- A whole program leaves its value alone on the stack. -/
theorem Computes.exec (h : Computes step code value) (t : T) :
    Postfix.exec step 0 code ([], t) = (value t).bind fun r => .ok ([r.1], r.2) := by
  have hnil := h [] [] t
  rwa [append_nil] at hnil

end MailServer.Lib.Postfix
