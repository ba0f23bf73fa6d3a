import Mathlib.Data.Finset.Sort

/-!
# Hash sets (`AHashSet`)

A hash set is its set of members; iterating it visits every member once, in an order the hasher picks.
-/

namespace MailServer.Utils

open List

/-- An order of iteration. -/
structure HashOrder (α : Type*) where
  iter : Finset α → List α
  nodup : ∀ s, (iter s).Nodup
  mem_iter : ∀ s x, x ∈ iter s ↔ x ∈ s

namespace HashOrder

variable {α : Type*}

theorem length_iter [DecidableEq α] (o : HashOrder α) (s : Finset α) : (o.iter s).length = s.card := by
  have h : (o.iter s).toFinset = s := by
    ext x
    rw [mem_toFinset, o.mem_iter]
  rw [← toFinset_card_of_nodup (o.nodup s), h]

theorem iter_empty (o : HashOrder α) : o.iter ∅ = [] := by
  rw [eq_nil_iff_forall_not_mem]
  intro x hx
  exact Finset.notMem_empty x ((o.mem_iter ∅ x).mp hx)

theorem iter_singleton (o : HashOrder α) (x : α) : o.iter {x} = [x] := by
  have hmem (y : α) : y ∈ o.iter {x} ↔ y = x := by
    rw [o.mem_iter, Finset.mem_singleton]
  rcases hl : o.iter {x} with _ | ⟨a, l⟩
  · have := (hmem x).mpr rfl
    rw [hl] at this
    exact absurd this not_mem_nil
  · rw [hl] at hmem
    have ha := (hmem a).mp mem_cons_self
    have hnodup := o.nodup {x}
    rw [hl] at hnodup
    have hnil : l = [] := by
      rw [eq_nil_iff_forall_not_mem]
      intro y hy
      have hyx := (hmem y).mp (mem_cons_of_mem _ hy)
      exact (nodup_cons.mp hnodup).1 (ha.trans hyx.symm ▸ hy)
    rw [hnil, ha]

/-- Some order. -/
noncomputable def any (α : Type*) : HashOrder α where
  iter := Finset.toList
  nodup := Finset.nodup_toList
  mem_iter _ _ := Finset.mem_toList

/-- The members from the least to the greatest. -/
def sorted (α : Type*) [LinearOrder α] : HashOrder α where
  iter s := s.sort (· ≤ ·)
  nodup s := s.sort_nodup (· ≤ ·)
  mem_iter s _ := s.mem_sort (· ≤ ·)

def u32 : HashOrder UInt32 :=
  @sorted _ (LinearOrder.lift' UInt32.toNat fun _ _ => UInt32.toNat_inj.mp)

def u64 : HashOrder UInt64 :=
  @sorted _ (LinearOrder.lift' UInt64.toNat fun _ _ => UInt64.toNat_inj.mp)

end HashOrder

end MailServer.Utils
