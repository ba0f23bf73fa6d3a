import Mathlib.Data.Nat.Notation
import Mathlib.Tactic.Common

/-!
# The units of strings

A character above the first 65536 is a pair of surrogates.

* `encodeUtf16 s`: the units of a string.  `fromUtf16`: the string of units, unless a surrogate stands alone.
* `fromUtf16_encodeUtf16`, `encodeUtf16_of_fromUtf16`: each undoes the other.
-/

namespace MailServer.Lib

open List

def utf16Units (c : Char) : List ℕ :=
  if c.toNat < 0x10000 then [c.toNat]
  else [0xD800 + (c.toNat - 0x10000) / 0x400, 0xDC00 + (c.toNat - 0x10000) % 0x400]

def encodeUtf16 (s : List Char) : List ℕ := s.flatMap utf16Units

def fromUtf16 : List ℕ → Option (List Char)
  | [] => some []
  | [u] => if u < 0xD800 ∨ 0xE000 ≤ u then some [Char.ofNat u] else none
  | u :: v :: units =>
    if u < 0xD800 ∨ 0xE000 ≤ u then (fromUtf16 (v :: units)).map (Char.ofNat u :: ·)
    else if u < 0xDC00 ∧ 0xDC00 ≤ v ∧ v < 0xE000 then
      (fromUtf16 units).map (Char.ofNat (0x10000 + (u - 0xD800) * 0x400 + (v - 0xDC00)) :: ·)
    else none

/-- Every surrogate is one of a pair. -/
def Paired : List ℕ → Prop
  | [] => True
  | [u] => u < 0xD800 ∨ 0xE000 ≤ u
  | u :: v :: units =>
    if u < 0xD800 ∨ 0xE000 ≤ u then Paired (v :: units)
    else (u < 0xDC00 ∧ 0xDC00 ≤ v ∧ v < 0xE000) ∧ Paired units

theorem fromUtf16_eq_none_iff (units : List ℕ) : fromUtf16 units = none ↔ ¬ Paired units := by
  induction units using fromUtf16.induct with
  | case1 => simp [fromUtf16, Paired]
  | case2 u hu | case3 u hu => simp [fromUtf16, Paired]
  | case4 u v units hu ih => rw [fromUtf16, Paired, if_pos hu, if_pos hu, Option.map_eq_none_iff, ih]
  | case5 u v units hu hpair ih =>
    rw [fromUtf16, Paired, if_neg hu, if_neg hu, if_pos hpair, Option.map_eq_none_iff, ih, and_iff_right hpair]
  | case6 u v units hu hpair => simp [fromUtf16, Paired, hu, hpair]

theorem fromUtf16_single {u : ℕ} (h : u < 0xD800 ∨ 0xE000 ≤ u) (units : List ℕ) :
    fromUtf16 (u :: units) = (fromUtf16 units).map (Char.ofNat u :: ·) := by
  cases units with
  | nil => simp [fromUtf16, h]
  | cons v units => rw [fromUtf16, if_pos h]

theorem toNat_cases (c : Char) : c.toNat < 0xD800 ∨ 0xE000 ≤ c.toNat ∧ c.toNat < 0x110000 := by
  rcases c.valid with h | ⟨h, h'⟩
  · exact Or.inl h
  · exact Or.inr ⟨h, h'⟩

theorem fromUtf16_encodeUtf16 (s : List Char) : fromUtf16 (encodeUtf16 s) = some s := by
  induction s with
  | nil => rfl
  | cons c s ih =>
    have hc := toNat_cases c
    rw [encodeUtf16, flatMap_cons, ← encodeUtf16, utf16Units]
    split_ifs with hlow
    · rw [singleton_append, fromUtf16_single (by omega), ih, Char.ofNat_toNat]
      rfl
    · have hpair : 0x10000 + (0xD800 + (c.toNat - 0x10000) / 0x400 - 0xD800) * 0x400 +
          (0xDC00 + (c.toNat - 0x10000) % 0x400 - 0xDC00) = c.toNat := by omega
      rw [cons_append, singleton_append, fromUtf16, if_neg (by omega), if_pos (by omega), hpair, ih, Char.ofNat_toNat]
      rfl

theorem encodeUtf16_of_fromUtf16 : ∀ {units : List ℕ} {s : List Char}, (∀ u ∈ units, u < 0x10000) →
    fromUtf16 units = some s → encodeUtf16 s = units := by
  have hchar {n : ℕ} (h : n < 0xD800 ∨ 0xE000 ≤ n ∧ n < 0x110000) : (Char.ofNat n).toNat = n := by
    have hvalid : n.isValidChar := h
    rw [Char.ofNat, dif_pos hvalid]
    rfl
  intro units
  induction units using fromUtf16.induct with
  | case1 =>
    intro s _ h
    obtain rfl := Option.some.inj h
    rfl
  | case2 u hu =>
    intro s hall h
    have hlt := hall u (mem_singleton_self u)
    rw [fromUtf16, if_pos hu] at h
    obtain rfl := Option.some.inj h
    simp [encodeUtf16, utf16Units, hchar (n := u) (by omega), hlt]
  | case3 u hu =>
    intro s _ h
    rw [fromUtf16, if_neg hu] at h
    cases h
  | case4 u v units hu ih =>
    intro s hall h
    have hlt := hall u mem_cons_self
    rw [fromUtf16, if_pos hu] at h
    obtain ⟨s, hs, rfl⟩ := Option.map_eq_some_iff.mp h
    rw [encodeUtf16, flatMap_cons, ← encodeUtf16, ih (fun u hu => hall u (mem_cons_of_mem _ hu)) hs, utf16Units,
      hchar (by omega), if_pos hlt, singleton_append]
  | case5 u v units hu hpair ih =>
    intro s hall h
    rw [fromUtf16, if_neg hu, if_pos hpair] at h
    obtain ⟨s, hs, rfl⟩ := Option.map_eq_some_iff.mp h
    rw [encodeUtf16, flatMap_cons, ← encodeUtf16, ih (fun u hu => hall u (mem_cons_of_mem _ (mem_cons_of_mem _ hu))) hs,
      utf16Units, hchar (by omega), if_neg (by omega)]
    have hhigh : 0xD800 + (0x10000 + (u - 0xD800) * 0x400 + (v - 0xDC00) - 0x10000) / 0x400 = u := by omega
    have hlow : 0xDC00 + (0x10000 + (u - 0xD800) * 0x400 + (v - 0xDC00) - 0x10000) % 0x400 = v := by omega
    rw [hhigh, hlow]
    rfl
  | case6 u v units hu hpair =>
    intro s _ h
    rw [fromUtf16, if_neg hu, if_neg hpair] at h
    cases h

end MailServer.Lib
