import Mathlib.Data.List.Nodup

/-!
# Lists with an index

Items have keys, no two the same, and an index knows the place of each.

* `Indexed`: the index has the place of every item, and nothing else.
* `Indexed.set`, `Indexed.append`: an item that replaces that of its key, and one with a new key.
-/

namespace MailServer.Lib

open List Option

variable {α K : Type*} {key : α → K} {index : K → Option ℕ} {items : List α}

/-- The index has the place of every item, and nothing else. -/
def Indexed (key : α → K) (index : K → Option ℕ) (items : List α) : Prop :=
  ∀ k i, index k = some i ↔ items[i]?.map key = some k

/-- The item of a key. -/
def itemAt (index : K → Option ℕ) (items : List α) (k : K) : Option α := (index k).bind fun i => items[i]?

theorem indexed_nil : Indexed key (fun _ => none) [] := by
  intro k i
  simp

theorem Indexed.itemAt_eq_some (h : Indexed key index items) {k : K} {a : α} :
    itemAt index items k = some a ↔ a ∈ items ∧ key a = k := by
  unfold itemAt
  constructor
  · intro ha
    obtain ⟨i, hi, hget⟩ := bind_eq_some_iff.mp ha
    have hk := (h k i).mp hi
    rw [hget] at hk
    exact ⟨mem_of_getElem? hget, some.inj hk⟩
  · rintro ⟨hmem, rfl⟩
    obtain ⟨i, hget⟩ := getElem?_of_mem hmem
    rw [(h (key a) i).mpr (by rw [hget, map_some])]
    exact hget

theorem Indexed.nodup (h : Indexed key index items) : (items.map key).Nodup := by
  refine nodup_iff_getElem?_ne_getElem?.mpr fun i j hij hj heq => ?_
  rw [getElem?_map, getElem?_map] at heq
  have hi : i < items.length := by
    rw [length_map] at hj
    exact Nat.lt_trans hij hj
  rw [getElem?_eq_getElem hi] at heq
  have hplace := (h (key items[i]) i).mpr (by rw [getElem?_eq_getElem hi]; rfl)
  have hplace' := (h (key items[i]) j).mpr heq.symm
  exact Nat.ne_of_lt hij (some.inj (hplace.symm.trans hplace'))

variable [DecidableEq K]

theorem Indexed.set (h : Indexed key index items) {a : α} {i : ℕ} (hi : index (key a) = some i) :
    Indexed key index (items.set i a) ∧
      ∀ k, itemAt index (items.set i a) k = if key a = k then some a else itemAt index items k := by
  have hplace := (h (key a) i).mp hi
  obtain ⟨b, hget, -⟩ := map_eq_some_iff.mp hplace
  have hlt : i < items.length := (List.getElem?_eq_some_iff.mp hget).1
  constructor
  · intro k j
    rw [h k j]
    by_cases hij : i = j
    · subst hij
      rw [hplace, getElem?_set_self hlt]
      rfl
    · rw [getElem?_set_ne hij]
  · intro k
    unfold itemAt
    split_ifs with hk
    · subst hk
      rw [hi]
      exact getElem?_set_self hlt
    · cases hj : index k with
      | none => rfl
      | some j =>
        refine getElem?_set_ne ?_
        rintro rfl
        exact hk (some.inj (hplace.symm.trans ((h k i).mp hj)))

theorem Indexed.append (h : Indexed key index items) {a : α} (hnew : index (key a) = none) {index' : K → Option ℕ}
    (hindex : ∀ k, index' k = if key a = k then some items.length else index k) :
    Indexed key index' (items ++ [a]) ∧
      ∀ k, itemAt index' (items ++ [a]) k = if key a = k then some a else itemAt index items k := by
  have hlt : ∀ {k i}, index k = some i → i < items.length := by
    intro k i hi
    obtain ⟨b, hget, -⟩ := map_eq_some_iff.mp ((h k i).mp hi)
    exact (List.getElem?_eq_some_iff.mp hget).1
  constructor
  · intro k i
    rw [hindex]
    rcases Nat.lt_trichotomy i items.length with hi | rfl | hi
    · rw [getElem?_append_left hi, ← h k i]
      split_ifs with hk
      · subst hk
        rw [hnew]
        simp [Nat.ne_of_gt hi]
      · rfl
    · rw [getElem?_concat_length]
      split_ifs with hk
      · simp [hk]
      · exact ⟨fun hi => absurd (hlt hi) (Nat.lt_irrefl _), fun hi => absurd (some.inj hi) hk⟩
    · rw [getElem?_eq_none (by rw [length_append, length_singleton]; omega)]
      split_ifs with hk
      · simp [Nat.ne_of_lt hi]
      · refine ⟨fun hi' => absurd (hlt hi') (by omega), fun hi' => ?_⟩
        cases hi'
  · intro k
    unfold itemAt
    rw [hindex]
    split_ifs with hk
    · exact getElem?_concat_length
    · cases hi : index k with
      | none => rfl
      | some i => exact getElem?_append_left (hlt hi)

end MailServer.Lib
