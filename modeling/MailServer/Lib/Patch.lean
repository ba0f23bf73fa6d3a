import Mathlib.Data.List.Induction
import Mathlib.Data.List.InsertIdx

/-!
# Patches of lists

A patch removes entries of a list and then inserts others at given places, the least place first.

* `insertAll`: the insertions, which fail at a place beyond the end of the list.
* `insertAll_eq_some`: what has to hold of the new list.
-/

namespace MailServer.Lib

open List

variable {α : Type*}

/-- One insertion. -/
def insertAt (l : List α) (a : α × ℕ) : Option (List α) := if a.2 ≤ l.length then some (l.insertIdx a.2 a.1) else none

def insertAll (l : List α) (added : List (α × ℕ)) : Option (List α) := added.foldlM insertAt l

theorem insertIdx_length (u v : List α) (a : α) : (u ++ v).insertIdx u.length a = u ++ a :: v := by
  induction u with
  | nil => rfl
  | cons x u ih => rw [cons_append, length_cons, insertIdx_succ_cons, ih, cons_append]

/-- The places after an inserted entry are those of the entries behind it. -/
theorem getElem?_around (u v : List α) (a : α) (i : ℕ) :
    (u ++ a :: v)[i]? = if i < u.length then (u ++ v)[i]? else if i = u.length then some a else (u ++ v)[i - 1]? := by
  split_ifs with h1 h2
  · rw [getElem?_append_left h1, getElem?_append_left h1]
  · subst h2
    rw [getElem?_append_right (Nat.le_refl _), Nat.sub_self, getElem?_cons_zero]
  · rw [getElem?_append_right (by omega), getElem?_append_right (by omega),
      show i - u.length = (i - 1 - u.length) + 1 by omega, getElem?_cons_succ]

/-- An insertion splits the list at the place. -/
theorem insertAt_eq_some {l m : List α} {a : α × ℕ} :
    insertAt l a = some m ↔ ∃ u v, l = u ++ v ∧ m = u ++ a.1 :: v ∧ u.length = a.2 := by
  rw [insertAt]
  constructor
  · intro h
    split_ifs at h with hle
    have hlen : (l.take a.2).length = a.2 := length_take_of_le hle
    refine ⟨l.take a.2, l.drop a.2, (take_append_drop _ _).symm, ?_, hlen⟩
    have hmid := insertIdx_length (l.take a.2) (l.drop a.2) a.1
    rw [take_append_drop, hlen] at hmid
    rw [← hmid]
    exact (Option.some.inj h).symm
  · rintro ⟨u, v, rfl, rfl, hlen⟩
    rw [if_pos (by rw [length_append]; omega), ← hlen, insertIdx_length]

theorem insertAll_concat (l : List α) (added : List (α × ℕ)) (a : α × ℕ) :
    insertAll l (added ++ [a]) = (insertAll l added).bind fun m => insertAt m a := by
  rw [insertAll, foldlM_append]
  rw [insertAll]
  simp

variable {p : α → Bool}

/-- **Insertions of what a test accepts, into a list without it,** give the list that has it at just these places and
whose other entries are the old ones. -/
theorem insertAll_eq_some {l m : List α} {added : List (α × ℕ)} (hsorted : added.Pairwise fun a b => a.2 < b.2)
    (hadded : ∀ a ∈ added, p a.1 = true) (hl : ∀ x ∈ l, p x = false) :
    insertAll l added = some m ↔
      (∀ i x, p x = true → ((x, i) ∈ added ↔ m[i]? = some x)) ∧ l = m.filter fun x => !p x := by
  induction added using List.reverseRecOn generalizing m with
  | nil =>
    constructor
    · intro h
      obtain rfl := Option.some.inj h
      refine ⟨fun i x hx => ⟨fun hmem => absurd hmem not_mem_nil, fun hi => ?_⟩, ?_⟩
      · rw [hl x (mem_of_getElem? hi)] at hx
        exact absurd hx Bool.false_ne_true
      · exact (filter_eq_self.mpr fun x hx => by rw [hl x hx]; rfl).symm
    · rintro ⟨hplaces, rfl⟩
      have hself : m.filter (fun x => !p x) = m := by
        refine filter_eq_self.mpr fun x hx => ?_
        obtain ⟨i, hi⟩ := getElem?_of_mem hx
        cases hpx : p x with
        | false => rfl
        | true => exact absurd ((hplaces i x hpx).mpr hi) not_mem_nil
      rw [hself]
      rfl
  | append_singleton added a ih =>
    obtain ⟨hbefore, -, hlast⟩ := pairwise_append.mp hsorted
    have hlt : ∀ b ∈ added, b.2 < a.2 := fun b hb => hlast b hb a (by simp)
    have hpa : p a.1 = true := hadded a (by simp)
    have hih := fun m' : List α => @ih m' hbefore fun b hb => hadded b (mem_append_left _ hb)
    have hfilter : ∀ u v : List α, (u ++ a.1 :: v).filter (fun x => !p x) = (u ++ v).filter fun x => !p x := by
      intro u v
      rw [filter_append, filter_cons_of_neg (by rw [hpa]; decide), filter_append]
    have hmem : ∀ i x, (x, i) ∈ added ++ [a] ↔ (x, i) ∈ added ∨ (x, i) = a := by
      intro i x
      rw [mem_append, mem_singleton]
    rw [insertAll_concat]
    constructor
    · intro h
      obtain ⟨m', hm', hat⟩ := Option.bind_eq_some_iff.mp h
      obtain ⟨u, v, rfl, rfl, hlen⟩ := insertAt_eq_some.1 hat
      obtain ⟨hplaces, hkept⟩ := (hih _).mp hm'
      refine ⟨fun i x hx => ?_, by rw [hfilter]; exact hkept⟩
      rw [hmem, getElem?_around]
      split_ifs with h1 h2
      · rw [← hplaces i x hx]
        refine or_iff_left ?_
        rintro rfl
        omega
      · constructor
        · rintro (hin | rfl)
          · have : i < a.2 := hlt _ hin
            omega
          · rfl
        · intro heq
          exact Or.inr (Prod.ext (Option.some.inj heq).symm (h2.trans hlen))
      · constructor
        · rintro (hin | rfl)
          · have : i < a.2 := hlt _ hin
            omega
          · exact absurd hlen.symm h2
        · intro hi
          have hin := (hplaces (i - 1) x hx).mpr hi
          have : i - 1 < a.2 := hlt _ hin
          omega
    · rintro ⟨hplaces, hkept⟩
      have ha : m[a.2]? = some a.1 := (hplaces a.2 a.1 hpa).mp (by simp)
      obtain ⟨hlen, -⟩ := List.getElem?_eq_some_iff.mp ha
      obtain ⟨u, v, rfl, hu⟩ : ∃ u v, m = u ++ a.1 :: v ∧ u.length = a.2 := by
        refine ⟨m.take a.2, m.drop (a.2 + 1), ?_, length_take_of_le (Nat.le_of_lt hlen)⟩
        have hget : m[a.2] = a.1 := by
          rw [getElem?_eq_getElem hlen] at ha
          exact Option.some.inj ha
        rw [← hget, ← drop_eq_getElem_cons hlen, take_append_drop]
      refine Option.bind_eq_some_iff.mpr ⟨u ++ v, (hih _).mpr ⟨fun i x hx => ?_, by rw [hkept, hfilter]⟩, ?_⟩
      · by_cases hi : i < u.length
        · have h := hplaces i x hx
          rw [hmem, getElem?_around, if_pos hi] at h
          rw [← h]
          refine ⟨Or.inl, ?_⟩
          rintro (hin | rfl)
          · exact hin
          · exact absurd hu (by omega)
        · constructor
          · intro hin
            have : i < a.2 := hlt _ hin
            omega
          · intro hget
            -- one place further on it would have been inserted after the last one
            have h := (hplaces (i + 1) x hx).mpr (by
              rw [getElem?_around, if_neg (by omega), if_neg (by omega)]
              exact hget)
            rcases (hmem _ _).mp h with hin | rfl
            · have : i + 1 < a.2 := hlt _ hin
              omega
            · exact absurd hu (by omega)
      · exact insertAt_eq_some.2 ⟨u, v, rfl, rfl, hu⟩

end MailServer.Lib
