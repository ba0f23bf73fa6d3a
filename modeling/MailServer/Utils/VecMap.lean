import Mathlib.Data.List.Nodup

/-!
# Vector maps (`utils/src/map/vec_map.rs`)

A map kept as a vector of key-value pairs in the order of insertion.  Every map of this development
is grown by `get_mut_or_insert` alone, so no key occurs twice.

* `VecMap.alter`: `get_mut_or_insert` followed by a change of the value.
* `VecMap.get_alter`, `VecMap.keys_alter`: what it changes.
-/

namespace MailServer.Utils

structure VecMap (K V : Type*) where
  inner : List (K × V)
  nodup : (inner.map Prod.fst).Nodup

namespace VecMap

variable {K V : Type*}

@[ext] theorem ext {m n : VecMap K V} (h : m.inner = n.inner) : m = n := by
  cases m
  congr

def empty : VecMap K V := ⟨[], List.nodup_nil⟩

instance : Inhabited (VecMap K V) := ⟨empty⟩

def keys (m : VecMap K V) : List K := m.inner.map Prod.fst

def isEmpty (m : VecMap K V) : Bool := m.inner.isEmpty

section

variable [DecidableEq K] [Inhabited V]

def find (k : K) : List (K × V) → Option V
  | [] => none
  | (k', v) :: l => if k' = k then some v else find k l

/-- `VecMap::get`. -/
def get (m : VecMap K V) (k : K) : Option V := find k m.inner

def alterList (k : K) (f : V → V) : List (K × V) → List (K × V)
  | [] => [(k, f default)]
  | (k', v) :: l => if k' = k then (k', f v) :: l else (k', v) :: alterList k f l

omit [Inhabited V] in
theorem find_eq_none {k : K} {l : List (K × V)} : find k l = none ↔ k ∉ l.map Prod.fst := by
  induction l with
  | nil => simp [find]
  | cons p l ih =>
    by_cases hk : p.1 = k
    · simp [find, hk]
    · simp [find, hk, ih, Ne.symm hk]

theorem keys_alterList (k : K) (f : V → V) (l : List (K × V)) :
    (alterList k f l).map Prod.fst =
      if k ∈ l.map Prod.fst then l.map Prod.fst else l.map Prod.fst ++ [k] := by
  induction l with
  | nil => simp [alterList]
  | cons p l ih =>
    by_cases hk : p.1 = k
    · simp [alterList, hk]
    · rw [alterList, if_neg hk, List.map_cons, ih]
      have hmem : k ∈ (p :: l).map Prod.fst ↔ k ∈ l.map Prod.fst := by simp [Ne.symm hk]
      split_ifs with h1 h2 h2
      · rfl
      · exact absurd (hmem.mpr h1) h2
      · exact absurd (hmem.mp h2) h1
      · rfl

/-- `*self.get_mut_or_insert(k) = f(..)`. -/
def alter (m : VecMap K V) (k : K) (f : V → V) : VecMap K V where
  inner := alterList k f m.inner
  nodup := by
    rw [keys_alterList]
    split_ifs with h
    · exact m.nodup
    · exact m.nodup.append (List.nodup_singleton k) (by simpa using h)

theorem keys_alter (m : VecMap K V) (k : K) (f : V → V) :
    (m.alter k f).keys = if k ∈ m.keys then m.keys else m.keys ++ [k] :=
  keys_alterList k f m.inner

theorem mem_keys_alter {m : VecMap K V} {k j : K} {f : V → V} :
    j ∈ (m.alter k f).keys ↔ j = k ∨ j ∈ m.keys := by
  rw [keys_alter]
  split_ifs with h
  · refine ⟨Or.inr, ?_⟩
    rintro (rfl | hj)
    · exact h
    · exact hj
  · rw [List.mem_append, List.mem_singleton, or_comm]

theorem get_alter (m : VecMap K V) (k j : K) (f : V → V) :
    (m.alter k f).get j = if j = k then some (f ((m.get k).getD default)) else m.get j := by
  suffices h : ∀ l : List (K × V),
      find j (alterList k f l) = if j = k then some (f ((find k l).getD default)) else find j l from
    h m.inner
  intro l
  induction l with
  | nil =>
    by_cases hj : j = k
    · simp [alterList, find, hj]
    · simp [alterList, find, hj, Ne.symm hj]
  | cons p l ih =>
    by_cases hp : p.1 = k
    · by_cases hj : j = k
      · simp [alterList, find, hp, hj]
      · simp [alterList, find, hp, hj, Ne.symm hj]
    · by_cases hj : j = k
      · subst hj
        simp [alterList, find, hp] at ih ⊢
        exact ih
      · simp [alterList, if_neg hp, find, ih, if_neg hj]

omit [Inhabited V] in
theorem get_eq_none {m : VecMap K V} {k : K} : m.get k = none ↔ k ∉ m.keys := find_eq_none

omit [Inhabited V] in
theorem get_eq_some {m : VecMap K V} {k : K} {v : V} : m.get k = some v ↔ (k, v) ∈ m.inner := by
  obtain ⟨l, hl⟩ := m
  show find k l = some v ↔ (k, v) ∈ l
  induction l with
  | nil => simp [find]
  | cons p l ih =>
    obtain ⟨hp, hrest⟩ := List.nodup_cons.mp hl
    by_cases hk : p.1 = k
    · have hnot : (k, v) ∉ l := by
        intro h
        exact hp (hk ▸ List.mem_map_of_mem h)
      obtain ⟨k', w⟩ := p
      obtain rfl : k' = k := hk
      simp [find, hnot, eq_comm]
    · have hne : (k, v) ≠ p := by
        rintro rfl
        exact hk rfl
      simp [find, hk, hne, ih hrest]

end

end VecMap

end MailServer.Utils
