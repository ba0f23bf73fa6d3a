import MailServer.Lib.Run
import Mathlib.Data.List.Basic

/-!
# Writes in pieces

A batch of writes goes to the store in pieces.  A piece is written as a whole or not at all, and the first
piece that fails is the last one tried.

* `commitPieces`: the pieces one after the other.
* `commitPieces_spec`: the writes of some first pieces are in the store, all of them when nothing failed.
* `cutAt`: a list in pieces.  `commitGroups`: groups of writes that are not cut.
* `EachAfter`: what holds of each element of a list and those before it.
-/

namespace MailServer.Lib

open List

variable {σ ω : Type*} (apply : σ → ω → Option σ)

/-- The writes of one piece. -/
def applyAll : List ω → σ → Option σ
  | [], s => some s
  | w :: ws, s =>
    match apply s w with
    | none => none
    | some s' => applyAll ws s'

/-- The state that is left, and whether every piece was written. -/
def commitPieces : List (List ω) → σ → σ × Bool
  | [], s => (s, true)
  | piece :: rest, s =>
    match applyAll apply piece s with
    | none => (s, false)
    | some s' => commitPieces rest s'

variable {apply}

theorem applyAll_append {ws ws' : List ω} {s : σ} :
    applyAll apply (ws ++ ws') s = (applyAll apply ws s).bind (applyAll apply ws') := by
  induction ws generalizing s with
  | nil => rfl
  | cons w ws ih =>
    rw [cons_append, applyAll, applyAll]
    cases apply s w with
    | none => rfl
    | some s' => exact ih

theorem applyAll_singleton {w : ω} {s s' : σ} (h : applyAll apply [w] s = some s') : apply s w = some s' := by
  rw [applyAll] at h
  cases hw : apply s w with
  | none => rw [hw] at h; cases h
  | some t => rw [hw] at h; exact h

theorem applyAll_eq_run {ws : List ω} {s : σ} : applyAll apply ws s = Run.run apply s ws := by
  induction ws generalizing s with
  | nil => rfl
  | cons w ws ih =>
    rw [applyAll, Run.run]
    cases apply s w with
    | none => rfl
    | some s' => exact ih

/-- **What is written** is the first pieces, up to one that fails. -/
theorem commitPieces_spec (apply : σ → ω → Option σ) (pieces : List (List ω)) (s : σ) :
    ∃ n, applyAll apply (pieces.take n).flatten s = some (commitPieces apply pieces s).1 ∧
      ((commitPieces apply pieces s).2 = true → pieces.take n = pieces) := by
  induction pieces generalizing s with
  | nil => exact ⟨0, rfl, fun _ => rfl⟩
  | cons piece rest ih =>
    rw [commitPieces]
    cases h : applyAll apply piece s with
    | none => exact ⟨0, rfl, nofun⟩
    | some s' =>
      obtain ⟨n, hn, hall⟩ := ih s'
      refine ⟨n + 1, ?_, fun hok => ?_⟩
      · rw [take_succ_cons, flatten_cons, applyAll_append, h]
        exact hn
      · rw [take_succ_cons, hall hok]

/-- A list in pieces of the given lengths; what is left is the last piece. -/
def cutAt {α : Type*} : List ℕ → List α → List (List α)
  | [], l => [l]
  | n :: ns, l => l.take n :: cutAt ns (l.drop n)

theorem flatten_cutAt {α : Type*} (ns : List ℕ) (l : List α) : (cutAt ns l).flatten = l := by
  induction ns generalizing l with
  | nil => simp [cutAt]
  | cons n ns ih => rw [cutAt, flatten_cons, ih, take_append_drop]

/-- Groups of writes, each of which goes into one piece. -/
def commitGroups (apply : σ → ω → Option σ) (cuts : List ℕ) (groups : List (List ω)) (s : σ) : σ × Bool :=
  commitPieces apply ((cutAt cuts groups).map List.flatten) s

theorem commitGroups_spec (apply : σ → ω → Option σ) (cuts : List ℕ) (groups : List (List ω)) (s : σ) :
    ∃ k, applyAll apply (groups.take k).flatten s = some (commitGroups apply cuts groups s).1 ∧
      ((commitGroups apply cuts groups s).2 = true → groups.take k = groups) := by
  obtain ⟨n, hn, hall⟩ := commitPieces_spec apply ((cutAt cuts groups).map List.flatten) s
  have hfirst : ((cutAt cuts groups).take n).flatten <+: groups := by
    refine ⟨((cutAt cuts groups).drop n).flatten, ?_⟩
    rw [← flatten_append, take_append_drop, flatten_cutAt]
  have htake := prefix_iff_eq_take.mp hfirst
  refine ⟨((cutAt cuts groups).take n).flatten.length, ?_, fun hok => ?_⟩
  · rw [← htake]
    rw [← map_take, ← flatten_flatten] at hn
    exact hn
  · have hlength : (cutAt cuts groups).take n = cutAt cuts groups := by
      have := congrArg List.length (hall hok)
      rw [length_take, length_map] at this
      exact take_of_length_le (by omega)
    rw [← htake, hlength, flatten_cutAt]

/-! ## Elements and what is before them -/

section

variable {α : Type*} {P Q : List α → α → Prop} {before l : List α} {x : α}

def EachAfter (P : List α → α → Prop) : List α → List α → Prop
  | _, [] => True
  | before, x :: rest => P before x ∧ EachAfter P (before ++ [x]) rest

theorem eachAfter_append {l' : List α} :
    EachAfter P before (l ++ l') ↔ EachAfter P before l ∧ EachAfter P (before ++ l) l' := by
  induction l generalizing before with
  | nil => simp [EachAfter]
  | cons y l ih => rw [cons_append, EachAfter, EachAfter, ih, and_assoc, append_assoc, singleton_append]

theorem eachAfter_concat : EachAfter P before (l ++ [x]) ↔ EachAfter P before l ∧ P (before ++ l) x := by
  simp [eachAfter_append, EachAfter]

theorem eachAfter_of_forall (h : ∀ x ∈ l, ∀ between, P (before ++ between) x) : EachAfter P before l := by
  induction l generalizing before with
  | nil => trivial
  | cons y l ih =>
    refine ⟨by simpa using h y mem_cons_self [], ih ?_⟩
    intro x hx between
    rw [append_assoc]
    exact h x (mem_cons_of_mem y hx) ([y] ++ between)

theorem EachAfter.imp (h : EachAfter P before l) (hPQ : ∀ x ∈ l, ∀ prior, P prior x → Q prior x) :
    EachAfter Q before l := by
  induction l generalizing before with
  | nil => trivial
  | cons y l ih =>
    exact ⟨hPQ y mem_cons_self before h.1, ih h.2 fun x hx => hPQ x (mem_cons_of_mem y hx)⟩

theorem EachAfter.of_mem (h : EachAfter P before l) (hx : x ∈ l) : ∃ prior ⊆ before ++ l, P prior x := by
  obtain ⟨l₁, l₂, rfl⟩ := append_of_mem hx
  refine ⟨before ++ l₁, ?_, (eachAfter_append.1 h).2.1⟩
  rw [← append_assoc]
  exact subset_append_left _ _

theorem EachAfter.take (h : EachAfter P before l) (k : ℕ) : EachAfter P before (l.take k) := by
  induction l generalizing before k with
  | nil => simpa using h
  | cons y l ih =>
    cases k with
    | zero => trivial
    | succ k => exact ⟨h.1, ih h.2 k⟩

end

end MailServer.Lib
