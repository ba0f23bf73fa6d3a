import Mathlib.Data.Finset.Sort
import Mathlib.Order.Interval.Finset.Nat

/-!
# Ranks in a finite set

The members of a finite set of a linear order are numbered from 1 on, in their order.

* `rank`: the number of members up to an element.
* `rank_insert_self`, `rank_insert_of_mem`: a new greatest member takes the next number; the others keep theirs.
* `foldl_eraseNth`: members erased one by one from the sorted list, by their numbers.
-/

namespace MailServer.Lib.Rank

variable {α : Type*} [LinearOrder α] {s t : Finset α} {a b : α} {l : List α}

/-- The number of members up to `a`. -/
def rank (s : Finset α) (a : α) : ℕ := (s.filter (· ≤ a)).card

theorem rank_le_card : rank s a ≤ s.card := Finset.card_filter_le s _

theorem rank_pos (ha : a ∈ s) : 0 < rank s a :=
  Finset.card_pos.mpr ⟨a, Finset.mem_filter.mpr ⟨ha, le_rfl⟩⟩

theorem rank_lt (hb : b ∈ s) (h : a < b) : rank s a < rank s b := by
  have hsub : s.filter (· ≤ a) ⊆ s.filter (· ≤ b) :=
    Finset.monotone_filter_right s fun _ _ hx => le_trans hx h.le
  refine Finset.card_lt_card ((Finset.ssubset_iff_of_subset hsub).mpr ⟨b, ?_, ?_⟩)
  · exact Finset.mem_filter.mpr ⟨hb, le_rfl⟩
  · exact fun hm => absurd (Finset.mem_filter.mp hm).2 (not_le.mpr h)

theorem rank_injOn : Set.InjOn (rank s) s := by
  intro a ha b hb h
  rcases lt_trichotomy a b with hlt | heq | hgt
  · exact absurd h (rank_lt hb hlt).ne
  · exact heq
  · exact absurd h.symm (rank_lt ha hgt).ne

/-- The members have the numbers from 1 to the size of the set. -/
theorem image_rank (s : Finset α) : s.image (rank s) = Finset.Icc 1 s.card := by
  apply Finset.eq_of_subset_of_card_le
  · intro n hn
    obtain ⟨a, ha, rfl⟩ := Finset.mem_image.mp hn
    exact Finset.mem_Icc.mpr ⟨rank_pos ha, rank_le_card⟩
  · rw [Finset.card_image_of_injOn rank_injOn, Nat.card_Icc, Nat.add_sub_cancel]

theorem exists_rank_iff {n : ℕ} : (∃ a ∈ s, rank s a = n) ↔ 1 ≤ n ∧ n ≤ s.card := by
  rw [← Finset.mem_Icc, ← image_rank, Finset.mem_image]

/-- A new greatest member takes the next number. -/
theorem rank_insert_self (h : ∀ x ∈ s, x < a) : rank (insert a s) a = s.card + 1 := by
  have hall : (insert a s).filter (· ≤ a) = insert a s := by
    refine Finset.filter_true_of_mem fun x hx => ?_
    rcases Finset.mem_insert.mp hx with rfl | hx
    · exact le_rfl
    · exact (h x hx).le
  rw [rank, hall, Finset.card_insert_of_notMem fun ha => (h a ha).false]

/-- The others keep theirs. -/
theorem rank_insert_of_mem (h : ∀ x ∈ s, x < a) (hb : b ∈ s) : rank (insert a s) b = rank s b := by
  rw [rank, Finset.filter_insert, if_neg (not_le.mpr (h b hb)), rank]

/-! ## The sorted list -/

theorem rank_erase (ha : a ∈ s) (h : a ≤ b) : rank (s.erase a) b + 1 = rank s b := by
  have hmem : a ∈ s.filter (· ≤ b) := Finset.mem_filter.mpr ⟨ha, h⟩
  rw [rank, Finset.filter_erase, Finset.card_erase_add_one hmem, rank]

theorem eq_sort (hl : l.Pairwise (· < ·)) (h : ∀ a, a ∈ l ↔ a ∈ s) : l = s.sort (· ≤ ·) :=
  hl.eq_of_mem_iff (Finset.sortedLT_sort s).pairwise fun a => (h a).trans (Finset.mem_sort _).symm

theorem filter_sort (p : α → Bool) : (s.sort (· ≤ ·)).filter p = (s.filter fun a => p a).sort (· ≤ ·) :=
  eq_sort ((Finset.sortedLT_sort s).pairwise.filter p) fun a => by simp

/-- Two sets, the second behind the first, in one list. -/
theorem sort_union (h : ∀ a ∈ s, ∀ b ∈ t, a < b) : s.sort (· ≤ ·) ++ t.sort (· ≤ ·) = (s ∪ t).sort (· ≤ ·) := by
  refine eq_sort (List.pairwise_append.mpr ⟨(Finset.sortedLT_sort s).pairwise, (Finset.sortedLT_sort t).pairwise, ?_⟩)
    fun a => by simp
  exact fun a ha b hb => h a ((Finset.mem_sort _).mp ha) b ((Finset.mem_sort _).mp hb)

/-- A list without its `n`th member, counted from 1 on. -/
def eraseNth (l : List α) : ℕ → List α
  | 0 => l
  | n + 1 => l.eraseIdx n

/-- A member stands in the sorted list at the place that its rank tells. -/
theorem eraseNth_rank (ha : a ∈ s) : eraseNth (s.sort (· ≤ ·)) (rank s a) = (s.erase a).sort (· ≤ ·) := by
  induction s using Finset.induction_on_min with
  | empty => cases ha
  | insert x s hx ih =>
    have hnot : x ∉ s := fun h => lt_irrefl x (hx x h)
    have hcons {t : Finset α} (ht : t ⊆ s) : (insert x t).sort (· ≤ ·) = x :: t.sort (· ≤ ·) :=
      Finset.sort_insert _ (fun y hy => (hx y (ht hy)).le) fun h => hnot (ht h)
    have hle : x ≤ a := (Finset.mem_insert.mp ha).elim (fun h => h.ge) fun h => (hx a h).le
    have hrank := rank_erase (Finset.mem_insert_self x s) hle
    rw [Finset.erase_insert hnot] at hrank
    rw [← hrank, hcons (Finset.Subset.refl s)]
    rcases Finset.mem_insert.mp ha with rfl | ha
    · have hnone : rank s a = 0 := Finset.card_eq_zero.mpr
        (Finset.filter_eq_empty_iff.mpr fun y hy => not_le.mpr (hx y hy))
      rw [hnone, Finset.erase_insert hnot]
      rfl
    · obtain ⟨n, hn⟩ := Nat.exists_eq_succ_of_ne_zero (rank_pos ha).ne'
      have hrest := ih ha
      rw [hn] at hrest ⊢
      rw [Finset.erase_insert_of_ne (hx a ha).ne, hcons (Finset.erase_subset a s), ← hrest]
      rfl

/-- Members are erased in their order, each by its rank less the number of those that have gone before. -/
theorem foldl_eraseNth (f : α → ℕ) : ∀ (l : List α) (s : Finset α) (k : ℕ), l.Pairwise (· < ·) →
    (∀ a ∈ l, a ∈ s ∧ f a = rank s a + k) →
    ((l.map f).zipIdx k).foldl (fun m e => eraseNth m (e.1 - e.2)) (s.sort (· ≤ ·)) = (s \ l.toFinset).sort (· ≤ ·)
  | [], s, k, _, _ => by simp
  | a :: l, s, k, hl, h => by
    obtain ⟨hlt, hl⟩ := List.pairwise_cons.mp hl
    obtain ⟨⟨ha, hfa⟩, h⟩ := List.forall_mem_cons.mp h
    rw [List.map_cons, List.zipIdx_cons, List.foldl_cons, hfa, Nat.add_sub_cancel, eraseNth_rank ha,
      foldl_eraseNth f l (s.erase a) (k + 1) hl, List.toFinset_cons, Finset.sdiff_insert, Finset.erase_sdiff_comm]
    intro b hb
    obtain ⟨hbs, hfb⟩ := h b hb
    have hrank := rank_erase ha (hlt b hb).le
    exact ⟨Finset.mem_erase.mpr ⟨(hlt b hb).ne', hbs⟩, by omega⟩

end MailServer.Lib.Rank
