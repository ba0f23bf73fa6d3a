import Mathlib.Data.List.Basic
import Mathlib.Order.Lattice

/-!
# Slices

A slice that is out of bounds is none at all; the portion of a list is cut to what there is.

* `sliceGet`: the elements of a range, where the range is in bounds.
* `portion`: the elements from an offset on, of a length where one is given.
-/

namespace MailServer.Lib

open List

variable {α : Type*}

def sliceGet (l : List α) (start stop : ℕ) : Option (List α) :=
  if start ≤ stop ∧ stop ≤ l.length then some ((l.take stop).drop start) else none

/-- What there is from an offset on, up to a length where one is given. -/
def portion (l : List α) (offset : ℕ) (length : Option ℕ) : List α :=
  match length with
  | some n => (l.take (min (offset + n) l.length)).drop (min offset l.length)
  | none => l.drop (min offset l.length)

theorem drop_min_length (l : List α) (offset : ℕ) : l.drop (min offset l.length) = l.drop offset := by
  by_cases h : offset ≤ l.length
  · rw [min_eq_left h]
  · rw [min_eq_right (by omega), drop_length, drop_eq_nil_of_le (by omega)]

theorem portion_none (l : List α) (offset : ℕ) : portion l offset none = l.drop offset := drop_min_length l offset

theorem portion_some (l : List α) (offset n : ℕ) : portion l offset (some n) = (l.drop offset).take n := by
  show (l.take (min (offset + n) l.length)).drop (min offset l.length) = _
  by_cases h : offset ≤ l.length
  · rw [min_eq_left h, drop_take, take_eq_take_iff, length_drop]
    omega
  · have hnil : (l.take (min (offset + n) l.length)).drop (min offset l.length) = [] := by
      rw [drop_eq_nil_iff, length_take]
      omega
    rw [hnil, drop_eq_nil_of_le (by omega), take_nil]

theorem portion_eq_nil_iff {l : List α} {offset : ℕ} {length : Option ℕ} :
    portion l offset length = [] ↔ l.length ≤ offset ∨ length = some 0 := by
  cases length with
  | none =>
    rw [portion_none]
    simp
  | some n =>
    rw [portion_some]
    simp [or_comm]

/-- A range that is in bounds is the portion of its length. -/
theorem sliceGet_of_le {l : List α} {start stop : ℕ} (h : start ≤ stop) (h' : stop ≤ l.length) :
    sliceGet l start stop = some (portion l start (some (stop - start))) := by
  rw [sliceGet, if_pos ⟨h, h'⟩, portion_some, drop_take]

theorem sliceGet_of_lt {l : List α} {start stop : ℕ} (h : stop < start ∨ l.length < stop) :
    sliceGet l start stop = none := by
  rw [sliceGet, if_neg (by omega)]

/-- A length that reaches the end is no bound. -/
theorem portion_of_le {l : List α} {offset n : ℕ} (h : l.length ≤ offset + n) :
    portion l offset (some n) = portion l offset none := by
  rw [portion_some, portion_none]
  refine take_of_length_le ?_
  rw [length_drop]
  omega

end MailServer.Lib
