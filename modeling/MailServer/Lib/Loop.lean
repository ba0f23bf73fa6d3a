import Mathlib.Tactic.Common

/-!
# Loops

A loop takes steps until one of them gives a result.

* `loop`: as many steps as there is fuel for.
* `loop_of_rank`: with a rank that every step decreases the fuel does not matter, and what an invariant says of the
  result holds.
-/

namespace MailServer.Lib

variable {S R : Type*} {step : S → S ⊕ R}

/-- The result of a loop, if it has one with so much fuel. -/
def loop (step : S → S ⊕ R) : ℕ → S → Option R
  | 0, _ => none
  | fuel + 1, s =>
    match step s with
    | .inl s' => loop step fuel s'
    | .inr r => some r

theorem loop_of_inl {s s' : S} (h : step s = .inl s') (fuel : ℕ) : loop step (fuel + 1) s = loop step fuel s' := by
  rw [loop, h]

theorem loop_of_inr {s : S} {r : R} (h : step s = .inr r) (fuel : ℕ) : loop step (fuel + 1) s = some r := by
  rw [loop, h]

variable {Inv : S → Prop} (Post : R → Prop) {rank : S → ℕ}

/-- **A loop ends**, with one result for every fuel above the rank. -/
theorem loop_of_rank (hnext : ∀ s s', Inv s → step s = .inl s' → Inv s' ∧ rank s' < rank s)
    (hdone : ∀ s r, Inv s → step s = .inr r → Post r) {s : S} (hs : Inv s) :
    ∃ r, Post r ∧ ∀ fuel, rank s < fuel → loop step fuel s = some r := by
  induction hn : rank s using Nat.strongRecOn generalizing s with
  | ind n ih =>
    subst hn
    cases hstep : step s with
    | inr r =>
      refine ⟨r, hdone s r hs hstep, fun fuel hfuel => ?_⟩
      obtain ⟨fuel, rfl⟩ := Nat.exists_eq_add_one_of_ne_zero (Nat.ne_zero_of_lt hfuel)
      exact loop_of_inr hstep fuel
    | inl s' =>
      obtain ⟨hs', hlt⟩ := hnext s s' hs hstep
      obtain ⟨r, hr, hloop⟩ := ih (rank s') hlt hs' rfl
      refine ⟨r, hr, fun fuel hfuel => ?_⟩
      obtain ⟨fuel, rfl⟩ := Nat.exists_eq_add_one_of_ne_zero (Nat.ne_zero_of_lt hfuel)
      rw [loop_of_inl hstep]
      exact hloop fuel (by omega)

end MailServer.Lib
