import Mathlib.Data.Int.Order.Basic
import Mathlib.Tactic.Common

/-!
# The earliest entry after a time

A search that keeps, of the entries after a time `t`, the first one that no other entry precedes.

* `earliest_eq_some`: what it finds.
* `earliest_agree`: two lists have the same earliest entries after every time iff they have the same first entry at
  every time.
* `firstBetter_eq`: of a list in the order of time, the first entry that improves on the best one is as good as all.
-/

namespace MailServer.Lib

open List

variable {α : Type*} (time : α → ℤ) (t : ℤ)

/-- Is `x` after `t`, and before the best entry so far? -/
def better (best : Option α) (x : α) : Bool := t < time x && best.all fun b => time x < time b

def pick (best : Option α) (x : α) : Option α := if better time t best x then some x else best

def earliest (best : Option α) (l : List α) : Option α := l.foldl (pick time t) best

/-- The first entry that improves on the best one. -/
def firstBetter (best : Option α) (l : List α) : Option α := (l.find? (better time t best)).or best

variable {time t}

theorem better_none {x : α} : better time t none x = true ↔ t < time x := by simp [better]

theorem better_some {b x : α} : better time t (some b) x = true ↔ t < time x ∧ time x < time b := by simp [better]

theorem earliest_cons (best : Option α) (x : α) (l : List α) :
    earliest time t best (x :: l) = earliest time t (pick time t best x) l := rfl

theorem earliest_append (best : Option α) (l l' : List α) :
    earliest time t best (l ++ l') = earliest time t (earliest time t best l) l' := foldl_append

/-- What is found from `b` on: `b` itself where nothing precedes it, else the first of the least entries. -/
theorem earliest_from_some {b : α} (hb : t < time b) (l : List α) :
    ∃ y, earliest time t (some b) l = some y ∧ (b :: l).find? (fun x => time x = time y) = some y ∧ t < time y ∧
      ∀ x ∈ b :: l, t < time x → time y ≤ time x := by
  induction l generalizing b with
  | nil => exact ⟨b, rfl, by simp, hb, by simp⟩
  | cons x l ih =>
    rw [earliest_cons, pick]
    by_cases h : better time t (some b) x = true
    · obtain ⟨hx, hlt⟩ := better_some.1 h
      obtain ⟨y, he, hfind, hy, hleast⟩ := ih hx
      have hyx : time y ≤ time x := hleast x mem_cons_self hx
      refine ⟨y, by rw [if_pos h, he], ?_, hy, ?_⟩
      · rw [find?_cons_of_neg (by simp; omega)]
        exact hfind
      · rintro z (_ | ⟨_, hz⟩) hzt
        · omega
        · exact hleast z hz hzt
    · obtain ⟨y, he, hfind, hy, hleast⟩ := ih hb
      have hyb : time y ≤ time b := hleast b mem_cons_self hb
      have hx : ¬ (t < time x ∧ time x < time b) := fun hlt => h (better_some.2 hlt)
      refine ⟨y, by rw [if_neg h, he], ?_, hy, ?_⟩
      · by_cases hby : time b = time y
        · rw [find?_cons_of_pos (by simpa using hby)] at hfind ⊢
          exact hfind
        · rw [find?_cons_of_neg (by simpa using hby)] at hfind ⊢
          rw [find?_cons_of_neg (by simp; omega)]
          exact hfind
      · rintro z (_ | ⟨_, hz⟩) hzt
        · exact hyb
        · rcases hz with _ | ⟨_, hz⟩
          · omega
          · exact hleast z (mem_cons_of_mem _ hz) hzt

variable {l : List α}

theorem earliest_eq_none : earliest time t none l = none ↔ ∀ x ∈ l, time x ≤ t := by
  induction l with
  | nil => simp [earliest]
  | cons x l ih =>
    rw [earliest_cons, pick]
    by_cases h : t < time x
    · rw [if_pos (better_none.2 h)]
      obtain ⟨y, he, -⟩ := earliest_from_some h l
      simp only [he, reduceCtorEq, mem_cons, forall_eq_or_imp, false_iff]
      omega
    · rw [if_neg (by rwa [better_none]), ih]
      simp only [mem_cons, forall_eq_or_imp, iff_and_self]
      omega

/-- What is found is the first entry of the list at the least time after `t`. -/
theorem earliest_spec {y : α} (he : earliest time t none l = some y) :
    l.find? (fun x => time x = time y) = some y ∧ t < time y ∧ ∀ x ∈ l, t < time x → time y ≤ time x := by
  induction l with
  | nil => simp [earliest] at he
  | cons x l ih =>
    rw [earliest_cons, pick] at he
    by_cases h : t < time x
    · rw [if_pos (better_none.2 h)] at he
      obtain ⟨z, hz, hfacts⟩ := earliest_from_some h l
      obtain rfl : z = y := Option.some.inj (hz.symm.trans he)
      exact hfacts
    · rw [if_neg (by rwa [better_none])] at he
      obtain ⟨hfind, hy, hleast⟩ := ih he
      refine ⟨?_, hy, ?_⟩
      · rw [find?_cons_of_neg (by simp; omega)]
        exact hfind
      · rintro z (_ | ⟨_, hz⟩) hzt
        · exact absurd hzt h
        · exact hleast z hz hzt

theorem earliest_eq_some {y : α} :
    earliest time t none l = some y ↔
      l.find? (fun x => time x = time y) = some y ∧ t < time y ∧ ∀ x ∈ l, t < time x → time y ≤ time x := by
  refine ⟨earliest_spec, ?_⟩
  rintro ⟨hfind, hy, hleast⟩
  have hmem := mem_of_find?_eq_some hfind
  cases he : earliest time t none l with
  | none => exact absurd (earliest_eq_none.1 he y hmem) (by omega)
  | some z =>
    obtain ⟨hzfind, hz, hzleast⟩ := earliest_spec he
    have h1 := hzleast y hmem hy
    have h2 := hleast z (mem_of_find?_eq_some hzfind) hz
    rw [le_antisymm h1 h2] at hzfind
    rw [← hfind, ← hzfind]

/-- The search on images, where the time of an entry is that of its image. -/
theorem earliest_map {β : Type*} {time' : β → ℤ} (f : α → β) (hf : ∀ x, time' (f x) = time x) (best : Option α)
    (l : List α) : (earliest time t best l).map f = earliest time' t (best.map f) (l.map f) := by
  induction l generalizing best with
  | nil => rfl
  | cons x l ih =>
    have hbetter : better time' t (best.map f) (f x) = better time t best x := by
      cases best with
      | none => simp [better, hf]
      | some b => simp [better, hf]
    rw [map_cons, earliest_cons, earliest_cons, ih, pick, pick, hbetter]
    by_cases h : better time t best x = true
    · rw [if_pos h, if_pos h, Option.map_some]
    · rw [if_neg h, if_neg h]

/-- What is found after `s - 1`, where an entry is at `s`. -/
theorem earliest_pred {s : ℤ} {y : α} (h : l.find? (fun x => time x = s) = some y) :
    earliest time (s - 1) none l = some y := by
  have hy : time y = s := by simpa using find?_some h
  refine earliest_eq_some.2 ⟨by rw [hy]; exact h, by omega, ?_⟩
  intro x _ hx
  omega

/-- **Agreement after every time is agreement at every time.** -/
theorem earliest_agree {l' : List α} :
    (∀ t, earliest time t none l = earliest time t none l') ↔
      ∀ s, l.find? (fun x => time x = s) = l'.find? (fun x => time x = s) := by
  constructor
  · intro h s
    have key : ∀ {a b : List α}, (∀ t, earliest time t none a = earliest time t none b) → ∀ y,
        a.find? (fun x => time x = s) = some y → b.find? (fun x => time x = s) = some y := by
      intro a b hab y hy
      have hs : time y = s := by simpa using find?_some hy
      have he := hab (s - 1)
      rw [earliest_pred hy] at he
      rw [← hs]
      exact (earliest_spec he.symm).1
    exact Option.ext fun y => ⟨key h y, key (fun t => (h t).symm) y⟩
  · intro h t
    have key : ∀ {a b : List α}, (∀ s, a.find? (fun x => time x = s) = b.find? (fun x => time x = s)) → ∀ y,
        earliest time t none a = some y → earliest time t none b = some y := by
      intro a b hab y hy
      obtain ⟨hfind, hyt, hleast⟩ := earliest_spec hy
      refine earliest_eq_some.2 ⟨by rw [← hab]; exact hfind, hyt, ?_⟩
      intro x hx hxt
      -- an entry of the one list at its time is an entry of the other at that time
      obtain ⟨z, hz⟩ : ∃ z, b.find? (fun w => time w = time x) = some z := by
        rw [← Option.isSome_iff_exists, find?_isSome]
        exact ⟨x, hx, by simp⟩
      rw [← hab] at hz
      have hzx : time z = time x := by simpa using find?_some hz
      have := hleast z (mem_of_find?_eq_some hz) (by omega)
      omega
    exact Option.ext fun y => ⟨key h y, key (fun s => (h s).symm) y⟩

/-- Where nothing of the list improves on the best entry, the search ends with it. -/
theorem earliest_of_not_better {best : Option α} (h : ∀ x ∈ l, better time t best x = false) :
    earliest time t best l = best := by
  induction l with
  | nil => rfl
  | cons x l ih =>
    rw [earliest_cons, pick, if_neg (by rw [h x mem_cons_self]; exact Bool.false_ne_true)]
    exact ih fun y hy => h y (mem_cons_of_mem _ hy)

/-- **In the order of time the first improvement is the search.** -/
theorem firstBetter_eq {best : Option α} (hl : l.Pairwise fun x y => time x ≤ time y) :
    firstBetter time t best l = earliest time t best l := by
  induction l with
  | nil => cases best <;> rfl
  | cons x l ih =>
    obtain ⟨hx, hrest⟩ := pairwise_cons.mp hl
    rw [earliest_cons, pick, firstBetter]
    by_cases h : better time t best x = true
    · rw [find?_cons_of_pos h, if_pos h, Option.some_or, earliest_of_not_better]
      intro y hy
      rw [← Bool.not_eq_true, better_some]
      have := hx y hy
      omega
    · rw [find?_cons_of_neg h, if_neg h]
      exact ih hrest

end MailServer.Lib
