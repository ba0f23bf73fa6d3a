import Mathlib.Data.List.Sort

/-!
# Sorted lists

* `filter_append_filter_not`: a test that holds up to some place cuts a sorted list in two.
* `dropWhile_eq_filter`: dropping what comes first.
* `tail_dropWhile_ne`: what comes behind an element.
* `pairwise_lt_sort`: sorting a list without duplicates.
* `eq_of_mem_iff`: a strictly sorted list is known by its elements.
-/

namespace MailServer.Lib

open List

variable {α : Type*}

variable {r : α → α → Prop} {l : List α}

/-- A test that holds before every element for which it holds. -/
theorem dropWhile_eq_filter {p : α → Bool} (hl : l.Pairwise r)
    (hp : ∀ a b, r a b → p b = true → p a = true) : l.dropWhile p = l.filter (fun a => !p a) := by
  induction l with
  | nil => rfl
  | cons a l ih =>
    obtain ⟨ha, hl⟩ := pairwise_cons.mp hl
    cases hpa : p a with
    | true => rw [dropWhile_cons_of_pos hpa, filter_cons_of_neg (by simp [hpa]), ih hl]
    | false =>
      have hall : l.filter (fun a => !p a) = l := by
        refine filter_eq_self.mpr fun b hb => ?_
        by_contra hpb
        rw [hp a b (ha b hb) (by simpa using hpb)] at hpa
        cases hpa
      rw [dropWhile_cons_of_neg (by simp [hpa]), filter_cons_of_pos (by simp [hpa]), hall]

theorem filter_append_filter_not {p : α → Bool} (hl : l.Pairwise r)
    (hp : ∀ a b, r a b → p b = true → p a = true) : l.filter p ++ l.filter (fun a => !p a) = l := by
  have htake : l.takeWhile p = l.filter p := by
    have hsplit := congrArg (filter p) (takeWhile_append_dropWhile (p := p) (l := l))
    rw [filter_append, dropWhile_eq_filter hl hp, filter_filter] at hsplit
    simpa [filter_eq_self.mpr (all_eq_true.mp (all_takeWhile (p := p)))] using hsplit
  rw [← htake, ← dropWhile_eq_filter hl hp, takeWhile_append_dropWhile]

variable [LinearOrder α]

theorem tail_dropWhile_ne (hl : l.Pairwise (· < ·)) {a : α} (ha : a ∈ l) :
    (l.dropWhile (· ≠ a)).tail = l.filter (a < ·) := by
  induction l with
  | nil => cases ha
  | cons b l ih =>
    obtain ⟨hb, hl⟩ := pairwise_cons.mp hl
    by_cases hba : b = a
    · subst hba
      have hall : l.filter (b < ·) = l := filter_eq_self.mpr fun c hc => by simpa using hb c hc
      simp [hall]
    · have hmem : a ∈ l := (mem_cons.mp ha).resolve_left fun h => hba h.symm
      rw [dropWhile_cons_of_pos (by simpa using hba), ih hl hmem,
        filter_cons_of_neg (by simpa using (hb a hmem).le)]

theorem pairwise_lt_sort (hl : l.Nodup) : (l.insertionSort (· ≤ ·)).Pairwise (· < ·) := by
  have hle := pairwise_insertionSort (· ≤ ·) l
  have hnodup : (l.insertionSort (· ≤ ·)).Nodup := (perm_insertionSort (· ≤ ·) l).nodup_iff.mpr hl
  exact hle.imp₂ (fun a b h hne => lt_of_le_of_ne h hne) hnodup

theorem sort_eq_self (hl : l.Pairwise (· < ·)) : l.insertionSort (· ≤ ·) = l :=
  (hl.imp le_of_lt).insertionSort_eq

theorem eq_of_mem_iff {m : List α} (hl : l.Pairwise (· < ·)) (hm : m.Pairwise (· < ·))
    (h : ∀ a, a ∈ l ↔ a ∈ m) : l = m := by
  have hperm : l.Perm m := (perm_ext_iff_of_nodup (hl.imp ne_of_lt) (hm.imp ne_of_lt)).mpr h
  exact hperm.eq_of_pairwise (fun a b _ _ hab hba => absurd hba (not_lt_of_gt hab)) hl hm

end MailServer.Lib
