import Mathlib.Tactic.Common

/-!
# What a computation with exceptions leaves

`Post Q E x`: the result of `x` satisfies `Q` if there is one, and its exception satisfies `E` if there is one.
One rule for each way of building a computation, and the rule of consequence.
-/

namespace MailServer.Lib

universe u v w

variable {ε : Type u} {α β : Type v} {Q Q' : α → Prop} {E : ε → Prop}

variable {x : Except ε α} {f : α → Except ε β}

theorem bind_eq_ok {b : β} (h : (x >>= f) = .ok b) : ∃ a, x = .ok a ∧ f a = .ok b := by
  rcases x with e | a
  · cases h
  · exact ⟨a, rfl, h⟩

def Post (Q : α → Prop) (E : ε → Prop) : Except ε α → Prop
  | .ok a => Q a
  | .error e => E e

@[simp] theorem post_ok {a : α} : Post Q E (.ok a) ↔ Q a := Iff.rfl

@[simp] theorem post_error {e : ε} : Post Q E (.error e) ↔ E e := Iff.rfl

theorem Post.bind {R : β → Prop} (hx : Post Q E x)
    (hf : ∀ a, Q a → Post R E (f a)) : Post R E (x >>= f) := by
  cases x with
  | ok a => exact hf a hx
  | error e => exact hx

theorem Post.mono (h : Post Q E x) (hQ : ∀ a, Q a → Q' a) : Post Q' E x := by
  cases x with
  | ok a => exact hQ a h
  | error e => exact h

theorem Post.ite {c : Prop} [Decidable c] {y : Except ε α} (hx : c → Post Q E x)
    (hy : ¬ c → Post Q E y) : Post Q E (if c then x else y) := by
  split
  · exact hx ‹_›
  · exact hy ‹_›

theorem post_true (x : Except ε α) : Post (fun _ => True) (fun _ => True) x := by
  cases x <;> trivial

theorem Post.of_eq_ok (h : Post Q E x) {a : α} (hx : x = .ok a) : Q a := by
  rw [hx] at h
  exact h

theorem Post.map {γ : Type v} {f : α → γ} {R : γ → Prop} (h : Post Q E x)
    (hf : ∀ a, Q a → R (f a)) : Post R E (x.map f) := by
  cases x with
  | ok a => exact hf a h
  | error e => exact h

/-- The rule for loops: each turn keeps the invariant. -/
theorem Post.foldlM {γ : Type w} {f : α → γ → Except ε α} (hf : ∀ a c, Q a → Post Q E (f a c)) :
    ∀ {l : List γ} {a : α}, Q a → Post Q E (l.foldlM f a)
  | [], _, ha => ha
  | c :: _, a, ha => (hf a c ha).bind fun _ hb => Post.foldlM hf hb

/-- The same rule where a turn may rely on what it is about. -/
theorem Post.foldlM_of_mem {γ : Type w} {f : α → γ → Except ε α} : ∀ {l : List γ},
    (∀ a, ∀ c ∈ l, Q a → Post Q E (f a c)) → ∀ {a : α}, Q a → Post Q E (l.foldlM f a)
  | [], _, _, ha => ha
  | c :: _, hf, a, ha => (hf a c List.mem_cons_self ha).bind fun _ hb =>
    Post.foldlM_of_mem (fun a d hd => hf a d (List.mem_cons_of_mem c hd)) hb

theorem Post.forM {γ : Type u} {f : γ → Except ε PUnit} {R : γ → Prop} (hf : ∀ c, Post (fun _ => R c) E (f c)) :
    ∀ {l : List γ}, Post (fun _ => ∀ c ∈ l, R c) E (l.forM f)
  | [] => nofun
  | c :: _ => (hf c).bind fun _ hc => (Post.forM hf).mono fun _ hrest => List.forall_mem_cons.mpr ⟨hc, hrest⟩

end MailServer.Lib
